import Qervan.Dict
import Qervan.Planner.Model
import Qervan.Planner.ValidateDag
import Qervan.Planner.Ancestry
import Qervan.Planner.Evaluate
import Qervan.Planner.Decompose
import Qervan.Planner.Search
import Qervan.Planner.HeapOrder
import Qervan.Planner.Termination
import Qervan.Planner.PlanShape
import Qervan.Planner.PlanErrors
import Qervan.Planner.BestPlan
import Qervan.Planner.Visualize
import Qervan.Auction.Combinatorial
import Qervan.Auction.Payments
