import DuplicateBlocks.Ignore.Rule
import Mathlib.Data.List.Induction

namespace DuplicateBlocks.Ignore

variable {α : Type} {rules more : List α} {isDirectory : Bool} {path : String}
  {one? : α → Bool → String → Option Verdict} {all? : List α → Bool → String → Option Verdict}

-- What is relied on of rules, whatever their patterns mean: where there are none nothing is said of a path, and of
-- those that say something the last one decides.
structure LastDecides (one? : α → Bool → String → Option Verdict)
    (all? : List α → Bool → String → Option Verdict) : Prop where
  nil    : ∀ isDirectory path, all? [] isDirectory path = none
  concat : ∀ rules r isDirectory path,
            all? (rules ++ [r]) isDirectory path = (one? r isDirectory path).or (all? rules isDirectory path)

namespace LastDecides

theorem append_eq_ignored (h : LastDecides one? all?)
    (hm : ∀ r ∈ more, ∀ v ∈ one? r isDirectory path, v = .ignored)
    (hr : all? rules isDirectory path = some .ignored) :
    all? (rules ++ more) isDirectory path = some .ignored := by
  induction more using List.reverseRecOn
  case nil => rwa [List.append_nil]
  case append_singleton more r hi =>
    obtain ⟨hm, hs⟩ := List.forall_mem_append.mp hm
    rw [← List.append_assoc, h.concat, hi hm]
    cases hv : one? r isDirectory path
    case none   => rfl
    case some v => rw [hs r List.mem_cons_self v hv, Option.some_or]

end LastDecides

def Rule.says? (r : Rule) (isDirectory : Bool) (path : String) : Option Verdict :=
  if r.covers isDirectory (Text.Utf8.encode path.toList) then some (if r.isException then .kept else .ignored) else none

theorem lastDecides_verdict? : LastDecides Rule.says? verdict? where
  nil    := fun _ _ => rfl
  concat := by
    intro rules r isDirectory path
    simp only [verdict?, Rule.says?, List.reverse_append, List.reverse_singleton, List.singleton_append,
      List.find?_cons]
    cases r.covers isDirectory (Text.Utf8.encode path.toList) <;> rfl

theorem ignored_of_says? {r : Rule} (h : r.isException = false) : ∀ v ∈ r.says? isDirectory path, v = .ignored := by
  unfold Rule.says?
  split <;> simp [h]

end DuplicateBlocks.Ignore
