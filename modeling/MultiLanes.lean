import MultiLanes.CacheRaceProofs
import MultiLanes.FileBackedProofs
import MultiLanes.PrefetchWindowProofs
import MultiLanes.ForcedUnitProofs
import MultiLanes.SfsLinkProofs
import MultiLanes.SfsPlacementProofs
import MultiLanes.SfsLinksProofs
import MultiLanes.OpenFileProofs
import MultiLanes.PositionProofs
import MultiLanes.SfsModuleProofs
import MultiLanes.TeardownProofs
import MultiLanes.SwitchProofs
import MultiLanes.SfsCloneProofs
import MultiLanes.SfsSymlinkProofs
import MultiLanes.LruLockProofs
import MultiLanes.SfsAttrProofs
import MultiLanes.SfsRenameDirProofs
import MultiLanes.SliceRoomProofs
import MultiLanes.FreeCacheProofs
import MultiLanes.SfsKvProofs
import MultiLanes.DentryLruProofs
