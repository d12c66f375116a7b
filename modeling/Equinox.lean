import Equinox.Market.Undelegating
import Equinox.Services.Keeper
import Equinox.Services.Requote
import Equinox.Workers.Mark
import Equinox.Workers.Relay
import Equinox.Book.Reference
import Equinox.Market.Crossing
import Equinox.Market.ReduceOnly
import Equinox.Market.Admission
import Equinox.Market.Children
import Equinox.Market.BadDebt
import Equinox.Market.Expiry
import Equinox.V2.Halts
import Equinox.Risk.Funding
import Equinox.Market.Recording
import Equinox.Market.Cursor
import Equinox.Market.Shortfall
import Equinox.Market.Stress
import Equinox.Market.ConfigStorage
import Equinox.Market.EventRing
import Equinox.Market.SeedCodec
import Equinox.V2.CommitCycles
import Equinox.V2.SessionLimits
import Equinox.V2.Undoing
import Equinox.Services.Reporter
import Equinox.Workers.Indexing
import Equinox.Market.Reachable
import Equinox.Workers.Fencing
