import Onnxsim.Fold.Agreement
import Onnxsim.Symbolic.Faithful
import Onnxsim.Driver.FixedPoint
import Onnxsim.Storage.HostileFiles
import Onnxsim.Storage.StandaloneRuns
import Onnxsim.Storage.ExternalLoads
import Onnxsim.Vnnlib.Parsing
import Onnxsim.ShapeRanges.Soundness
import Onnxsim.Versioning.Interpolation
import Onnxsim.Overflow.Certified
import Onnxsim.Storage.ReaderAgreement
import Onnxsim.Crown.Verdicts
import Onnxsim.Certify.ShrinkVerdicts
import Onnxsim.Rigorous.Enclosure
import Onnxsim.Gradients.Pairing
import Onnxsim.Remote.RightArtifact
import Onnxsim.QuantInt.TieWindows
import Onnxsim.BlockQuant.ZeroScales
import Onnxsim.QuantInt.Verdicts
import Onnxsim.Wire.Contract
import Onnxsim.Discovery.Discipline
import Onnxsim.Axcl.Contract
import Onnxsim.IcQuant.Combinadics
import Onnxsim.Versioning.PartialRuns
import Onnxsim.Reduce.NopReduce
import Onnxsim.Overflow.IndexFacts
import Onnxsim.Memory.Placement
import Onnxsim.Rpc.Tensors
import Onnxsim.Bitwise.Correctness
import Onnxsim.Passes.SplitGathers
import Onnxsim.Passes.Taps
import Onnxsim.Passes.PadFusion
import Onnxsim.Passes.TensorScatters
import Onnxsim.Passes.ScalarRuns
import Onnxsim.Rewriter.Commutative
import Onnxsim.Crown.PairCuts
import Onnxsim.ShapeCost.ArenaRuns
import Onnxsim.Mcode.RoundTrip
import Onnxsim.Traffic.GroupsSound
import Onnxsim.Pruning.Magnitude
import Onnxsim.Narrowing.Encoders
import Onnxsim.Gradients.Registry
