import Hlquery.Store.Races
import Hlquery.Store.Writers
import Hlquery.Store.DocumentIds
import Hlquery.Filter.Comparisons
import Hlquery.Filter.Fallback
import Hlquery.Filter.Printing
import Hlquery.Index.Drops
import Hlquery.Index.TopResults
import Hlquery.Index.Intersection
import Hlquery.Index.MappedWalk
import Hlquery.Index.ScopedKeys
import Hlquery.Index.FlushVisibility
import Hlquery.Index.FastDecoding
import Hlquery.Http.Authority
import Hlquery.Cache.Answers
import Hlquery.Cache.RequestKeys
import Hlquery.Keys.Manager
import Hlquery.Collections.Callers
import Hlquery.Collections.Migration
import Hlquery.Collections.Reservations
import Hlquery.Replication.Duplicates
import Hlquery.Replication.OutboxOrder
import Hlquery.Replication.SlaveMarks
import Hlquery.Replication.Forwarding
import Hlquery.Replication.QueryParams
import Hlquery.Replication.Replay
import Hlquery.Search.Distributed
import Hlquery.Search.Sorting
import Hlquery.Sql.Literals
import Hlquery.Sql.Negation
import Hlquery.Sql.Grouped
