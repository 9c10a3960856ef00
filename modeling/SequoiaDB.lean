import SequoiaDB.Util.UtilMap
import SequoiaDB.Dms.SMEMgr
import SequoiaDB.Dms.IndexedRecords
import SequoiaDB.Dps.LogRoundTrip
import SequoiaDB.Dps.LogSpace
import SequoiaDB.Dps.TransInfoSpec
import SequoiaDB.Dps.LockQueue
import SequoiaDB.Dms.CappedReplica
import SequoiaDB.Cls.VoteSafety
import SequoiaDB.Mth.PathValues
import SequoiaDB.Mth.MatchTree
import SequoiaDB.Qgm.HashJoin
import SequoiaDB.Rtn.DoneByPred
import SequoiaDB.Rtn.LobAccessSpec
import SequoiaDB.Rtn.LobCreateRollback
import SequoiaDB.Rtn.TransRollback
import SequoiaDB.Cls.ParallelReplay
import SequoiaDB.Cls.CatalogMatcher
import SequoiaDB.Cls.SyncMinHeap
import SequoiaDB.Util.LzwRoundTrip
import SequoiaDB.Cls.LobRollback
import SequoiaDB.Msg.Build
import SequoiaDB.Coord.CatalogRetry
import SequoiaDB.Coord.CommitAtomicity
import SequoiaDB.Coord.QueryWindow
