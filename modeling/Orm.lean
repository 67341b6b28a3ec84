import Orm.Logic.Adds
import Orm.Logic.Base64
import Orm.Logic.Digits
import Orm.Logic.Frames
import Orm.Logic.Fresh
import Orm.Logic.Holds
import Orm.Logic.Json
import Orm.Logic.Keyed
import Orm.Logic.Merge
import Orm.Logic.Nearest
import Orm.Logic.Padded
import Orm.Logic.Passes
import Orm.Logic.Reads
import Orm.Logic.Runs
import Orm.Logic.Separated
import Orm.Logic.Stop
import Orm.Logic.Utf16
import Orm.Logic.Utf8
import Orm.Logic.Walk
import Orm.Logic.Words
import Orm.Sql.Binds
import Orm.Sql.Like
import Orm.Sql.Text
import Orm.Sql.Truth
import Orm.Engine.Assigned
import Orm.Engine.Bound
import Orm.Engine.Build
import Orm.Engine.Canonical
import Orm.Engine.Checked
import Orm.Engine.Dialect
import Orm.Engine.Indexed
import Orm.Engine.Joined
import Orm.Engine.Model
import Orm.Engine.Once
import Orm.Engine.Order
import Orm.Engine.Placed
import Orm.Engine.Places
import Orm.Engine.Predicate
import Orm.Engine.Render
import Orm.Engine.Request
import Orm.Engine.Restore
import Orm.Engine.Select
import Orm.Engine.Sites
import Orm.Engine.Slots
import Orm.Engine.Validate
import Orm.Engine.Versioned
import Orm.Engine.Walk
import Orm.Engine.Write
import Orm.Dbspec.Alter
import Orm.Dbspec.Apply
import Orm.Dbspec.Catalog
import Orm.Dbspec.Chain
import Orm.Dbspec.Chained
import Orm.Dbspec.Counters
import Orm.Dbspec.Diff
import Orm.Dbspec.Emitted
import Orm.Dbspec.History
import Orm.Dbspec.Lines
import Orm.Dbspec.Matches
import Orm.Dbspec.Migrate
import Orm.Dbspec.Moves
import Orm.Dbspec.Pairing
import Orm.Dbspec.PlanText
import Orm.Dbspec.Rebuild
import Orm.Dbspec.Recover
import Orm.Dbspec.Renames
import Orm.Dbspec.Render
import Orm.Dbspec.Scan
import Orm.Dbspec.Schema
import Orm.Dbspec.Steps
import Orm.Dbspec.Tokens
import Orm.Dbspec.Undo
import Orm.Dbspec.Uses
import Orm.Dbspec.Valid
import Orm.Client.Address
import Orm.Client.Audit
import Orm.Client.Batch
import Orm.Client.Builder
import Orm.Client.ChainNames
import Orm.Client.Codec
import Orm.Client.Collect
import Orm.Client.Contains
import Orm.Client.Decimal
import Orm.Client.Float
import Orm.Client.ForeignKeys
import Orm.Client.Identity
import Orm.Client.Keys
import Orm.Client.Limit
import Orm.Client.Nested
import Orm.Client.Php
import Orm.Client.PhpGrammar
import Orm.Client.Pool
import Orm.Client.Rotate
import Orm.Client.Serialize
import Orm.Client.Session
import Orm.Client.Split
import Orm.Client.Stages
import Orm.Client.Styled
import Orm.Client.Transaction
