import DuplicateBlocks.Glob.Kind
import DuplicateBlocks.Glob.Parser
import DuplicateBlocks.Proofs.Utf8
import Mathlib.Data.List.TakeWhile

namespace DuplicateBlocks.Glob

variable {P : List UInt8 → Prop} {path name other : List UInt8} {ms ns : Marks} {cs : List Char} {s : State}

-- Marks tell of each rest of a path whether it is in a set.
inductive Marks.Tell (P : List UInt8 → Prop) : List UInt8 → Marks → Prop
  | nil {m : Bool} : (m = true ↔ P []) → Tell P [] [m]
  | cons {b : UInt8} {bs : List UInt8} {m : Bool} {ms : Marks} :
    (m = true ↔ P (b :: bs)) → Tell P bs ms → Tell P (b :: bs) (m :: ms)

def After (bytes : List UInt8) (P : List UInt8 → Prop) (rest : List UInt8) : Prop :=
  ∃ later, rest = bytes ++ later ∧ P later

def Below (P : List UInt8 → Prop) (rest : List UInt8) : Prop :=
  ∃ front later, rest = front ++ slash :: later ∧ P later

theorem after_nil (P : List UInt8 → Prop) : After [] P = P := by
  funext rest
  simp [After]

theorem after_append (bytes more : List UInt8) (P : List UInt8 → Prop) :
    After (bytes ++ more) P = After bytes (After more P) := by
  funext rest
  simp only [After, List.append_assoc, eq_iff_iff]
  constructor
  case mp =>
    rintro ⟨later, h, hp⟩
    exact ⟨more ++ later, h, later, rfl, hp⟩
  case mpr =>
    rintro ⟨_, h, later, rfl, hp⟩
    exact ⟨later, h, hp⟩

theorem below_cons_iff {b : UInt8} {bs : List UInt8} : Below P (b :: bs) ↔ b = slash ∧ P bs ∨ Below P bs := by
  constructor
  case mp =>
    rintro ⟨front, later, h, hp⟩
    cases front
    case nil =>
      cases h
      exact .inl ⟨rfl, hp⟩
    case cons =>
      cases h
      exact .inr ⟨_, later, rfl, hp⟩
  case mpr =>
    rintro (⟨rfl, hp⟩ | ⟨front, later, rfl, hp⟩)
    · exact ⟨[], bs, rfl, hp⟩
    · exact ⟨b :: front, later, rfl, hp⟩

namespace Marks.Tell

theorem headD (h : Tell P path ms) : ms.headD false = true ↔ P path := by
  cases h <;> assumption

theorem atEnd (path : List UInt8) : Tell (· = []) path (Marks.atEnd path) := by
  induction path
  case nil          => exact .nil (by simp)
  case cons b bs hi => exact .cons (by simp) hi

theorem byte (b : UInt8) (h : Tell P path ms) : Tell (After [b] P) path (Marks.byte (· == b) path ms) := by
  induction h
  case nil => exact .nil (by simp [After])
  case cons c cs m ms _ ht hi =>
    refine .cons ?_ hi
    rw [Bool.and_eq_true, ht.headD]
    simp [After, and_assoc]

theorem bytes (bytes : List UInt8) (h : Tell P path ms) :
    Tell (After bytes P) path (bytes.foldr (fun b ms => Marks.byte (· == b) path ms) ms) := by
  induction bytes
  case nil          => rwa [after_nil]
  case cons b bs hi => exact after_append [b] bs P ▸ hi.byte b

theorem or {Q : List UInt8 → Prop} (h : Tell P path ms) (h' : Tell Q path ns) :
    Tell (fun rest => P rest ∨ Q rest) path (Marks.or ms ns) := by
  induction h generalizing ns
  case nil hm =>
    cases h'
    case nil hn => exact .nil (by simp [hm, hn])
  case cons hm _ hi =>
    cases h'
    case cons ht hn => exact .cons (by simp [hm, hn]) (hi ht)

theorem pastSlash (h : Tell P path ms) : Tell (Below P) path (Marks.pastSlash path ms) := by
  induction h
  case nil => exact .nil (by simp [Below])
  case cons b bs m ms _ ht hi =>
    refine .cons ?_ hi
    rw [below_cons_iff, ← ht.headD, ← hi.headD]
    simp

theorem leading (h : Tell P path ms) : Tell (fun rest => P rest ∨ Below P rest) path (Marks.leading path ms) :=
  h.or h.pastSlash

theorem literals (cs : List Char) (h : Tell P path ms) :
    Tell (After (Text.Utf8.encode cs) P) path (before path (cs.map .literal) ms) := by
  induction cs
  case nil          => simpa [Text.Utf8.encode, after_nil, before] using h
  case cons c cs hi => exact after_append (String.utf8EncodeChar c) (Text.Utf8.encode cs) P ▸ hi.bytes _

end Marks.Tell

-- A path ends in a name, and nothing or a slash is in front of it.
def EndsIn (name path : List UInt8) : Prop :=
  path = name ∨ ∃ front, path = front ++ slash :: name

theorem EndsIn.takeWhile_reverse (h : EndsIn name path) (hn : slash ∉ name) :
    path.reverse.takeWhile (· != slash) = name.reverse := by
  have ha : ∀ b ∈ name.reverse, (b != slash) = true := by
    intro b hm
    simpa using fun he : b = slash => hn (he ▸ List.mem_reverse.mp hm)
  obtain rfl | ⟨front, rfl⟩ := h
  case inl => exact List.takeWhile_eq_self_iff.mpr ha
  case inr => simp [List.takeWhile_append_of_pos ha]

theorem EndsIn.unique (h : EndsIn name path) (h' : EndsIn other path) (hn : slash ∉ name) (ho : slash ∉ other) :
    name = other := by
  rw [← List.reverse_inj, ← h.takeWhile_reverse hn, h'.takeWhile_reverse ho]

theorem accepts_leading_iff (hc : cs ≠ []) :
    accepts (.leading :: cs.map .literal) path = true ↔ EndsIn (Text.Utf8.encode cs) path := by
  have ht := ((Marks.Tell.atEnd path).literals cs).leading
  have ha : accepts (.leading :: cs.map .literal) path =
      (Marks.leading path (before path (cs.map .literal) (Marks.atEnd path))).headD false := by
    obtain ⟨c, cs, rfl⟩ := List.exists_cons_of_ne_nil hc
    rfl
  rw [ha, ht.headD]
  simp [After, Below, EndsIn]

-- A character that stands for itself in a glob.
def IsOrdinary (c : Char) : Prop :=
  c ∉ ['*', '\\', '?', '\x7b', '\x7d', ',', '[']

theorem readTokens_cons {c : Char} (h : IsOrdinary c) (s : State) (cs : List Char) :
    readTokens s (c :: cs) = readTokens ((s.after c).push (.literal c)) cs := by
  simp only [IsOrdinary, List.mem_cons, List.not_mem_nil, or_false, not_or] at h
  rw [readTokens]
  all_goals simp_all

theorem readTokens_of_ordinary (h : ∀ c ∈ cs, IsOrdinary c) (hs : s.inGroup = false) :
    readTokens s cs = .ok (s.tokens.reverse ++ cs.map .literal) := by
  induction cs generalizing s
  case nil => simp [readTokens, hs]
  case cons c cs hi =>
    obtain ⟨hc, hcs⟩ := List.forall_mem_cons.mp h
    rw [readTokens_cons hc, hi hcs (by exact hs)]
    simp [State.push, State.after]

theorem parse_anywhere (h : ∀ c ∈ cs, IsOrdinary c) :
    parse (['*', '*', '/'] ++ cs) = .ok (.leading :: cs.map .literal) := by
  have hs : parse (['*', '*', '/'] ++ cs) = readTokens { tokens := [.leading], previous := some '/' } cs := by
    rw [parse, List.cons_append, List.cons_append, readTokens]
    rfl
  rw [hs, readTokens_of_ordinary h rfl]
  rfl

theorem plainText?_literals (cs : List Char) : plainText? (cs.map .literal) = some cs := by
  induction cs
  case nil          => rfl
  case cons c cs hi => simp_all [plainText?, Token.char?]

theorem kind_leading (hc : cs ≠ []) (hs : '/' ∉ cs) : kind (.leading :: cs.map .literal) = .name := by
  obtain ⟨c, cs, rfl⟩ := List.exists_cons_of_ne_nil hc
  simp only [kind, plainText?_literals]
  simp_all

end DuplicateBlocks.Glob
