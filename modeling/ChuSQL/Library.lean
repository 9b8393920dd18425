import ChuSQL.Library.ListCut
import ChuSQL.Library.PartitionPoint
import ChuSQL.Library.Framing
import ChuSQL.Library.Components
import ChuSQL.Library.RedoRun
import ChuSQL.Library.ByteFile
import ChuSQL.Library.SortedMap
import ChuSQL.Library.Search
import ChuSQL.Library.Fallible
import ChuSQL.Library.Growth
import ChuSQL.Library.Binary64
import ChuSQL.Library.Blocks
import ChuSQL.Library.FlatOrder
import ChuSQL.Library.Grouping

/-! The part of the development that knows nothing of the database. -/
