import BatteryOperator.Claim.Agreement
import BatteryOperator.Claim.Expiry
import BatteryOperator.Claim.Incarnation
import BatteryOperator.Claim.Retries
import BatteryOperator.ClaimClient.LostSound
import BatteryOperator.ClaimClient.TokensSound
import BatteryOperator.Clock
import BatteryOperator.Csr.Runs
import BatteryOperator.ExecAgent.Access
import BatteryOperator.ExecAgent.DrainSound
import BatteryOperator.ExecAgent.RelayRuns
import BatteryOperator.ExecAgent.ServingPair
import BatteryOperator.FakeBattery.Events
import BatteryOperator.FakeBattery.Leases
import BatteryOperator.Finalizers
import BatteryOperator.Inventory.Certificates
import BatteryOperator.Inventory.Target
import BatteryOperator.Pool.Drained
import BatteryOperator.Pool.Stall
