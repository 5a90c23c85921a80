/-
Offsets follow the order of declaration in every frame. What a frame binds a name to is told by probes in resolved
programs, right behind each declaration, so that names declared again are told too; it is compared with the place that
the declaration has in the text.
-/
import FoolLang.Proofs.Scoping.Probes
import Mathlib.Data.List.Nodup
import Mathlib.Data.List.ReduceOption

namespace FoolLang

open Scope

/-! ## What the frames bind -/

namespace Program

end Program

/-! ## Order -/

variable {s : Scope} {v : View}

namespace Program.Gap

variable {gap : Program.Gap .routine} (x : Content .routine)

end Program.Gap

/-! ## Items that no item before them is the same as -/

section

variable {α β : Type} {same : α → α → Bool}

end

/-! ## Classes -/

namespace ClassDecl

variable {c : ClassDecl}

end ClassDecl

namespace Program

variable (p : Program) (i : Nat) (c : ClassDecl)

end Program

namespace ClassDecl

variable {c : ClassDecl} {earlier : List ClassDecl}

end ClassDecl

/-! ## Programs -/

namespace Program

variable (p : Program)

end Program

/--
`let class A (x:int, x:int, y:bool) { fun m:int (p:int) let fun g:int () 1; var p:int = 2; in p; fun m:int (p:int) 3; }
var v:int = 4; fun f:int (q:int, q:bool) let var w:int = 5; fun h:int (r:int) r; var w:int = 6; in w; in v;`
-/
def crowded : Program :=
  .letIn [⟨"A", [⟨"x", .int, 1⟩, ⟨"x", .int, 1⟩, ⟨"y", .bool, 1⟩],
      [⟨⟨"m", .int, [⟨"p", .int, 1⟩], 1⟩, [.function ⟨"g", .int, [], 1⟩ [] (.int 1 1), .var "p" .int (.int 2 1) 1],
        .id "p" none 1, none⟩, ⟨⟨"m", .int, [⟨"p", .int, 1⟩], 1⟩, [], .int 3 1, none⟩], 1⟩]
    [.var "v" .int (.int 4 2) 2, .function ⟨"f", .int, [⟨"q", .int, 2⟩, ⟨"q", .bool, 2⟩], 2⟩
      [.var "w" .int (.int 5 2) 2, .function ⟨"h", .int, [⟨"r", .int, 2⟩], 2⟩ [] (.id "r" none 2),
        .var "w" .int (.int 6 2) 2] (.id "w" none 2)]
    (.id "v" none 2)

end FoolLang
