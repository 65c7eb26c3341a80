import Minerx.Condition
import Minerx.Api
import Minerx.Store
import Minerx.Prog
import Minerx.Controller.MinerSet
import Minerx.Controller.Miner
import Minerx.Controller.Chain
import Minerx.Interleaving
import Minerx.Verification.Scale
import Minerx.Verification.Owned
import Minerx.Verification.ReplicaBound
import Minerx.Verification.Status
import Minerx.Verification.Chain
import Minerx.Verification.Ledger
import Minerx.Verification.Finalizer
import Minerx.Verification.MinerPass
import Minerx.Verification.Manager
import Minerx.Verification.MinerSetPass
import Minerx.Verification.Versions
import Minerx.Verification.ChainPass
import Minerx.Verification.Intent
