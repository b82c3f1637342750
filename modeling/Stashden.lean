import Stashden.Lib.OrdMap
import Stashden.Core.Name
import Stashden.Sync.Path
import Stashden.Sync.Snapshot
import Stashden.Sync.Conflict
import Stashden.Sync.Ignore
import Stashden.Sync.Fit
import Stashden.Sync.State
import Stashden.Sync.Plan
import Stashden.Sync.Held
import Stashden.Sync.World
import Stashden.Sync.Engine
import Stashden.Sync.Effect
import Stashden.Sync.Frame
import Stashden.Sync.Settle
import Stashden.Sync.Pass
import Stashden.Sync.Agreement
import Stashden.Sync.Remote
import Stashden.Sync.Removal
import Stashden.Sync.Copies
import Stashden.Sync.Converge
import Stashden.Lib.Recursive
import Stashden.Lib.Table
import Stashden.Sync.Shares
import Stashden.Api.Rows
import Stashden.Api.Grants
import Stashden.Api.Address
import Stashden.Sync.Skipped
import Stashden.Sync.Calls
import Stashden.Sync.Stops
import Stashden.Sync.Brought
import Stashden.Sync.StateFiles
import Stashden.Sync.Interrupted
import Stashden.Sync.Edits
import Stashden.Sync.Unlost
import Stashden.Api.Tree
import Stashden.Api.Files
import Stashden.Api.Trash
import Stashden.Api.Access
import Stashden.Api.Dav
import Stashden.Api.Attempts
import Stashden.Api.Forest
import Stashden.Api.Effects
import Stashden.Api.Restore
import Stashden.Api.Ledger
import Stashden.Api.Books
import Stashden.Api.Purge
import Stashden.Api.Refunds
import Stashden.Api.OneWay
import Stashden.Api.Upkeep
import Stashden.Api.Sane
import Stashden.Api.Departure
import Stashden.Api.System
import Stashden.Api.Bequest
import Stashden.Api.Retention
import Stashden.Api.Undelete
import Stashden.Api.Search
import Stashden.Sync.KeptBack
import Stashden.Sync.Order
import Stashden.Upload.Resumable
import Stashden.Upload.Writers
import Stashden.Dav.Href
import Stashden.Dav.Multistatus
import Stashden.Dav.Submitted
import Stashden.Api.History
import Stashden.Api.Room
import Stashden.Api.Overwrites
import Stashden.Api.Copying
import Stashden.Api.Located
import Stashden.Api.Transfer
import Stashden.Api.Listing
import Stashden.Api.Confined
import Stashden.Api.Mounts
import Stashden.Api.Hits
import Stashden.Api.Routes
import Stashden.Api.Within
import Stashden.Api.Serves
import Stashden.Api.Shelf
import Stashden.Storage.Local
import Stashden.Api.Administration
