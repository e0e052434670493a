import Tcvm.ValueContext
import Tcvm.TailSuspension
import Tcvm.ErrorRecovery
import Tcvm.LifecycleRuns
import Tcvm.StartRuns
import Tcvm.UpvalueRuns
import Tcvm.SortOrder
import Tcvm.ParserRuns
import Tcvm.ChainRuns
import Tcvm.Comparison
import Tcvm.NumericFor
import Tcvm.Bitwise
import Tcvm.ConstEnforcement
import Tcvm.TableConstructor
import Tcvm.CallChain
import Tcvm.NumeralAgreement
import Tcvm.SearchAgreement
import Tcvm.OperatorParsing
import Tcvm.ShapeSharing
import Tcvm.TableMove
import Tcvm.MathRandom
import Tcvm.Utf8Agreement
import Tcvm.UnpackBounds
import Tcvm.FormatInteger
import Tcvm.HexFloat
import Tcvm.CompiledCaches
import Tcvm.GcLifetimes
import Tcvm.GcReclaim
import Tcvm.GcTermination
