import PaqusNetwork.Node.Resubmitting
import PaqusNetwork.Reference.Activation

namespace PaqusNetwork

open Effect Numeric

variable {F : Type} {paqus : Paqus F}

namespace Reference

end Reference

end PaqusNetwork
