import DuplicateBlocks.Discovery.Reading
import Mathlib.Data.List.Basic

namespace DuplicateBlocks.Discovery

variable {a : Allowance} {i : Intake} {content : List UInt8} {answers : List Answer} {o : Options} {l : Ledger}
  {n k : Nat}

theorem exceeds_eq_false_iff {limit : Option Nat} : exceeds limit n = false ↔ ∀ m ∈ limit, n ≤ m := by
  cases limit <;> simp [exceeds]

namespace Allowance

-- An attempt never asks for nothing, as the answer to that would look like the end of the file.
theorem asked_pos (h : a.left? n ≠ some 0) : 0 < a.asked n := by
  have hp : 0 < portion := by decide
  unfold asked
  cases a.fileSize <;> cases hl : a.left? n
  all_goals simp only [Option.elim_none, Option.elim_some]
  case none.none       => exact hp
  case some.none       => omega
  case none.some left  =>
    have : left ≠ 0 := by rintro rfl; exact h hl
    omega
  case some.some left  =>
    have : left ≠ 0 := by rintro rfl; exact h hl
    omega

structure Allows (a : Allowance) (size : Nat) : Prop where
  fileSize : ∀ m ∈ a.fileSize, size ≤ m
  total    : ∀ m ∈ a.total, a.used.toNat + size ≤ m

theorem Allows.left?_ne_zero (h : a.Allows n) (hk : k < n) : a.left? k ≠ some 0 := by
  intro hl
  have ⟨m, hm, he⟩ := Option.map_eq_some_iff.mp hl
  have ht := h.total m hm
  rw [Tally.toNat_add, Tally.toNat_ofNat] at he
  omega

end Allowance

namespace Intake

-- A file with this content has been read to some point, and nothing is wrong with it so far.
structure Holds (content : List UInt8) (i : Intake) : Prop where
  size   : i.size = content.length
  bytes  : i.taken.toList ++ i.rest = content
  noZero : 0 ∉ i.taken.toList

namespace Holds

theorem start (content : List UInt8) : Holds content { size := content.length, rest := content } :=
  ⟨rfl, rfl, List.not_mem_nil⟩

theorem length (h : i.Holds content) : i.taken.size + i.rest.length = content.length := by
  rw [← h.bytes, List.length_append, Array.length_toList]

theorem taken_eq (h : i.Holds content) (hr : i.rest = []) : i.taken.toList = content ∧ 0 ∉ content := by
  have hb := h.bytes
  rw [hr, List.append_nil] at hb
  exact ⟨hb, hb ▸ h.noZero⟩

end Holds

inductive Ends (a : Allowance) (content : List UInt8) : Except Skip (List UInt8) → Prop
  | read : 0 ∉ content → Ends a content (.ok content)
  | unreadable : Ends a content (.error .unreadable)
  | overByteBudget {n : Nat} : n < content.length → a.left? n = some 0 → Ends a content (.error .overByteBudget)
  | binary : 0 ∈ content → Ends a content (.error .binary)
  | tooLarge {n : Nat} : n ≤ content.length → exceeds a.fileSize n = true → Ends a content (.error .tooLarge)

-- What a turn can lead to: to an end, or on with the same or with fewer bytes to be read.
inductive Turned (a : Allowance) (content : List UInt8) (i : Intake) : Answer → Turn → Prop
  | done {answer : Answer} {verdict : Except Skip (List UInt8)} :
    Ends a content verdict → (verdict = .error .unreadable → answer = .failed) →
    Turned a content i answer (.done verdict)
  | interrupted : Turned a content i .interrupted (.next i)
  | next {n : Nat} {j : Intake} :
    j.Holds content → j.rest.length < i.rest.length → Turned a content i (.bytes n) (.next j)

theorem turned_takeIn (h : i.Holds content) (hn : 0 < n) :
    Turned a content i (.bytes k) (i.takeIn a (i.rest.take n)) := by
  have hl := h.length
  unfold takeIn
  split
  case isTrue he =>
    have hr : i.rest = [] := by
      cases hc : i.rest
      case nil  => rfl
      case cons => simp [hc, Nat.ne_of_gt hn] at he
    have ⟨ht, hz⟩ := h.taken_eq hr
    rw [ht]
    exact .done (.read hz) nofun
  case isFalse he =>
    split
    case isTrue hz =>
      have hm : 0 ∈ i.rest := List.mem_of_mem_take (List.contains_iff_mem.mp hz)
      exact .done (.binary (h.bytes ▸ List.mem_append_right _ hm)) nofun
    case isFalse hz =>
      split
      case isTrue hx => exact .done (.tooLarge (by rw [List.length_take]; omega) hx) nofun
      case isFalse hx =>
        have hd : i.rest.drop (i.rest.take n).length = i.rest.drop n := by
          rw [List.length_take]
          cases Nat.le_total n i.rest.length
          case inl hle => rw [Nat.min_eq_left hle]
          case inr hle => rw [Nat.min_eq_right hle, List.drop_length, List.drop_of_length_le hle]
        have hp : i.rest.length ≠ 0 := by
          intro h0
          simp [List.eq_nil_of_length_eq_zero h0] at he
        refine .next ⟨h.size, ?bytes, ?noZero⟩ ?shorter
        case bytes   => simp only [hd, Array.toList_appendList, List.append_assoc, List.take_append_drop, h.bytes]
        case noZero  => simpa [h.noZero] using hz
        case shorter => simp only [hd, List.length_drop]; omega

theorem turned (h : i.Holds content) (answer : Answer) : Turned a content i answer (i.turn a answer) := by
  have hl := h.length
  unfold turn spent?
  by_cases hs : a.left? i.taken.size = some 0
  case pos =>
    rw [if_pos hs]
    by_cases he : i.taken.size = i.size
    case pos =>
      have hr : i.rest = [] := List.eq_nil_of_length_eq_zero (by rw [h.size] at he; omega)
      have ⟨ht, hz⟩ := h.taken_eq hr
      rw [if_pos he, ht]
      exact .done (.read hz) nofun
    case neg =>
      rw [if_neg he]
      rw [h.size] at he
      exact .done (.overByteBudget (by omega) hs) nofun
  case neg =>
    rw [if_neg hs]
    cases answer
    case interrupted => exact .interrupted
    case failed      => exact .done .unreadable fun _ => rfl
    case bytes count => exact turned_takeIn h (Nat.lt_min.mpr ⟨by omega, Allowance.asked_pos hs⟩)

-- Without a further answer it is as if the next attempt had failed.
theorem turn_failed (a : Allowance) (i : Intake) : i.turn a .failed = .done (run a [] i) := by
  unfold turn
  rw [run]
  cases i.spent? a <;> rfl

theorem ends_run (h : i.Holds content) (answers : List Answer) : Ends a content (run a answers i) := by
  induction answers generalizing i
  case nil =>
    have ht := turned (a := a) h .failed
    rw [turn_failed] at ht
    cases ht
    assumption
  case cons answer answers hi =>
    have ht := turned (a := a) h answer
    rw [run]
    generalize i.turn a answer = t at ht
    cases ht
    case done he _      => exact he
    case interrupted    => exact hi h
    case next j n hj _  => exact hi hj

end Intake

namespace Answer

def isBytes : Answer → Bool
  | bytes _ => true
  | _ => false

end Answer

namespace Intake

-- Every answer with bytes brings the end closer, so that more answers than bytes are enough.
theorem run_ne_unreadable (h : i.Holds content) (hf : .failed ∉ answers)
    (hc : i.rest.length < answers.countP Answer.isBytes) : run a answers i ≠ .error .unreadable := by
  induction answers generalizing i
  case nil => simp at hc
  case cons answer answers hi =>
    have ⟨hn, hf'⟩ := not_or.mp (List.mem_cons.not.mp hf)
    have ht := turned (a := a) h answer
    rw [run]
    generalize i.turn a answer = t at ht
    cases ht
    case done hu     => exact fun hv => hn (hu hv).symm
    case interrupted => exact hi h hf' (by simpa [Answer.isBytes] using hc)
    case next j n hj hl =>
      rw [List.countP_cons_of_pos rfl] at hc
      exact hi hj hf' (by omega)

theorem run_of_allows (h : i.Holds content) (ha : a.Allows content.length) (hf : .failed ∉ answers)
    (hc : i.rest.length < answers.countP Answer.isBytes) :
    run a answers i = if 0 ∈ content then .error .binary else .ok content := by
  have he := ends_run (a := a) h answers
  have hu := run_ne_unreadable (a := a) h hf hc
  generalize run a answers i = verdict at he hu
  cases he
  case read hz              => rw [if_neg hz]
  case unreadable           => exact absurd rfl hu
  case overByteBudget hn hl => exact absurd hl (ha.left?_ne_zero hn)
  case binary hz            => rw [if_pos hz]
  case tooLarge n hn hx     =>
    rw [exceeds_eq_false_iff.mpr fun m hm => Nat.le_trans hn (ha.fileSize m hm)] at hx
    cases hx

end Intake

theorem judgeBy_file (hb : ∀ m ∈ o.maxTotalBytes, l.bytes.toNat + content.length ≤ Tally.cap) (hf : .failed ∉ answers)
    (hc : content.length < answers.countP Answer.isBytes) :
    l.judgeBy answers o (.file content) =
      if l.isFull o then .error .overFileBudget
      else if exceeds o.maxFileSize content.length then .error .tooLarge
      else if exceeds o.maxTotalBytes (l.bytes.toNat + content.length) then .error .overByteBudget
      else if 0 ∈ content then .error .binary
      else .ok content := by
  have ht : exceeds o.maxTotalBytes (l.bytes + .ofNat content.length).toNat =
      exceeds o.maxTotalBytes (l.bytes.toNat + content.length) := by
    cases hm : o.maxTotalBytes
    case none   => rfl
    case some m =>
      rw [Tally.toNat_add_ofNat_of_le (hb m hm)]
  simp only [Ledger.judgeBy, Ledger.judgeSize, ht]
  split
  case isTrue  => rfl
  case isFalse =>
    split
    case isTrue     => rfl
    case isFalse hs =>
      split
      case isTrue     => rfl
      case isFalse hx =>
        have ha : (l.allowance o).Allows content.length :=
          ⟨exceeds_eq_false_iff.mp (eq_false_of_ne_true hs), exceeds_eq_false_iff.mp (eq_false_of_ne_true hx)⟩
        exact Intake.run_of_allows (.start content) ha hf hc

theorem failed_not_mem_readily (found : Finding) : .failed ∉ found.readily := by
  cases found <;> simp [Finding.readily]

theorem lt_countP_readily (content : List UInt8) :
    content.length < (Finding.file content).readily.countP Answer.isBytes := by
  simp [Finding.readily, List.countP_replicate, Answer.isBytes]

-- The attempts to read a file are answered again and again, and none of them fails.
structure Steady (answer : Nat → Answer) : Prop where
  unfailing : ∀ k, answer k ≠ .failed
  fair      : ∀ k, ∃ j ≥ k, answer j ≠ .interrupted

def firstAnswers (answer : Nat → Answer) (n : Nat) : List Answer :=
  (List.range n).map answer

namespace Steady

variable {answer : Nat → Answer}

theorem failed_not_mem (h : Steady answer) (n : Nat) : .failed ∉ firstAnswers answer n := by
  simpa [firstAnswers] using fun k _ => h.unfailing k

theorem countP_mono (answer : Nat → Answer) (h : k ≤ n) :
    (firstAnswers answer k).countP Answer.isBytes ≤ (firstAnswers answer n).countP Answer.isBytes :=
  ((List.range_sublist.mpr h).map answer).countP_le

theorem exists_bytes (h : Steady answer) (k : Nat) : ∃ j ≥ k, (answer j).isBytes := by
  have ⟨j, hj, hi⟩ := h.fair k
  have hf := h.unfailing j
  refine ⟨j, hj, ?_⟩
  cases ha : answer j
  case interrupted => exact absurd ha hi
  case failed      => exact absurd ha hf
  case bytes       => rfl

theorem exists_lt_countP (h : Steady answer) (n : Nat) :
    ∃ k, n < (firstAnswers answer k).countP Answer.isBytes := by
  induction n
  case zero =>
    have ⟨j, _, hb⟩ := h.exists_bytes 0
    refine ⟨j + 1, ?_⟩
    simp [firstAnswers, List.range_succ, hb]
  case succ n hi =>
    have ⟨k, hk⟩ := hi
    have ⟨j, hj, hb⟩ := h.exists_bytes k
    have hm := countP_mono answer hj
    refine ⟨j + 1, ?_⟩
    simp only [firstAnswers, List.range_succ, List.map_append, List.map_singleton, List.countP_append,
      List.countP_singleton, hb, if_true] at hm hk ⊢
    omega

end Steady

def Options.AllowsSize (o : Options) (size : Nat) : Prop := ∀ m ∈ o.maxFileSize, size ≤ m

namespace Ledger

-- The counters that reading a file of so many bytes can change do not run over.
structure Spare (l : Ledger) (size : Nat) : Prop where
  bytes          : l.bytes.toNat + size ≤ Tally.cap
  scanned        : l.scanned.toNat < Tally.cap
  overFileBudget : l.overFileBudget.toNat < Tally.cap
  tooLarge       : l.tooLarge.toNat < Tally.cap
  overByteBudget : l.overByteBudget.toNat < Tally.cap
  binary         : l.binary.toNat < Tally.cap

def FilesLeft (l : Ledger) (o : Options) : Prop := ∀ m ∈ o.maxFiles, l.scanned.toNat < m

def BytesLeft (l : Ledger) (o : Options) (size : Nat) : Prop := ∀ m ∈ o.maxTotalBytes, l.bytes.toNat + size ≤ m

-- What a file has to meet to be read, in the order in which it is looked at.
structure Admits (l : Ledger) (o : Options) (content : List UInt8) : Prop where
  files  : l.FilesLeft o
  size   : o.AllowsSize content.length
  total  : l.BytesLeft o content.length
  noZero : 0 ∉ content

-- What a file of this content gives, with the ledger afterwards: its text, or nothing, and then the first demand that
-- it does not meet is counted. All the rest of the ledger stays.
inductive Gives (l : Ledger) (o : Options) (content : List UInt8) : Option (List Char) × Ledger → Prop
  | text {files bytes : Tally} :
    l.Admits o content → files.toNat = l.scanned.toNat + 1 → bytes.toNat = l.bytes.toNat + content.length →
    Gives l o content (some (Text.Utf8.decodeLossy content), { l with scanned := files, bytes := bytes })
  | overFileBudget {t : Tally} :
    ¬l.FilesLeft o → t.toNat = l.overFileBudget.toNat + 1 →
    Gives l o content (none, { l with overFileBudget := t })
  | tooLarge {t : Tally} :
    l.FilesLeft o → ¬o.AllowsSize content.length → t.toNat = l.tooLarge.toNat + 1 →
    Gives l o content (none, { l with tooLarge := t })
  | overByteBudget {t : Tally} :
    l.FilesLeft o → o.AllowsSize content.length → ¬l.BytesLeft o content.length →
    t.toNat = l.overByteBudget.toNat + 1 →
    Gives l o content (none, { l with overByteBudget := t })
  | binary {t : Tally} :
    l.FilesLeft o → o.AllowsSize content.length → l.BytesLeft o content.length → 0 ∈ content →
    t.toNat = l.binary.toNat + 1 →
    Gives l o content (none, { l with binary := t })

theorem isFull_eq_false_iff : l.isFull o = false ↔ l.FilesLeft o := by
  unfold isFull FilesLeft
  cases o.maxFiles <;> simp

theorem Gives.some_iff {r : Option (List Char) × Ledger} (h : l.Gives o content r) :
    r.1 = some (Text.Utf8.decodeLossy content) ↔ l.Admits o content := by
  cases h
  case text ha _ _              => exact iff_of_true rfl ha
  case overFileBudget hf _      => exact iff_of_false nofun fun ha => hf ha.files
  case tooLarge _ hs _          => exact iff_of_false nofun fun ha => hs ha.size
  case overByteBudget _ _ ht _  => exact iff_of_false nofun fun ha => ht ha.total
  case binary _ _ _ hz _        => exact iff_of_false nofun fun ha => ha.noZero hz

theorem gives_readBy (h : l.Spare content.length) (hf : .failed ∉ answers)
    (hc : content.length < answers.countP Answer.isBytes) :
    l.Gives o content (l.readBy answers o (.file content)) := by
  rw [readBy, judgeBy_file (fun _ _ => h.bytes) hf hc]
  cases hr : l.isFull o
  case true =>
    exact .overFileBudget (isFull_eq_false_iff.not.mp (by simp [hr])) (Tally.toNat_succ_of_lt h.overFileBudget)
  case false =>
    have hr := isFull_eq_false_iff.mp hr
    cases hs : exceeds o.maxFileSize content.length
    case true =>
      exact .tooLarge hr (exceeds_eq_false_iff.not.mp (by simp [hs])) (Tally.toNat_succ_of_lt h.tooLarge)
    case false =>
      have hs := exceeds_eq_false_iff.mp hs
      cases ht : exceeds o.maxTotalBytes (l.bytes.toNat + content.length)
      case true =>
        exact .overByteBudget hr hs (exceeds_eq_false_iff.not.mp (by simp [ht]))
          (Tally.toNat_succ_of_lt h.overByteBudget)
      case false =>
        have ht := exceeds_eq_false_iff.mp ht
        by_cases hz : 0 ∈ content
        case pos => simpa [hz] using .binary hr hs ht hz (Tally.toNat_succ_of_lt h.binary)
        case neg =>
          simpa [hz] using .text ⟨hr, hs, ht, hz⟩ (Tally.toNat_succ_of_lt h.scanned)
            (Tally.toNat_add_ofNat_of_le h.bytes)

end Ledger

-- However the bytes of a file are handed out, reading it comes to an end, and always to the same one.
theorem readBy_of_steady (l : Ledger) (o : Options) (content : List UInt8) (h : l.Spare content.length) :
    l.Gives o content (l.read o (.file content)) ∧
    ((l.read o (.file content)).1 = some (Text.Utf8.decodeLossy content) ↔ l.Admits o content) ∧
    ∀ answer, Steady answer → ∃ k, ∀ n ≥ k,
      l.readBy (firstAnswers answer n) o (.file content) = l.read o (.file content) := by
  have hg := Ledger.gives_readBy (o := o) h (failed_not_mem_readily _) (lt_countP_readily content)
  refine ⟨hg, hg.some_iff, ?_⟩
  intro answer hs
  have ⟨k, hk⟩ := hs.exists_lt_countP content.length
  refine ⟨k, fun n hn => ?_⟩
  have hc := Nat.lt_of_lt_of_le hk (Steady.countP_mono answer hn)
  unfold Ledger.read Ledger.readBy
  rw [judgeBy_file (fun _ _ => h.bytes) (hs.failed_not_mem n) hc,
    judgeBy_file (fun _ _ => h.bytes) (failed_not_mem_readily _) (lt_countP_readily content)]

-- One byte at a time, with every other attempt interrupted.
def trickle (k : Nat) : Answer :=
  if k % 2 = 0 then .interrupted else .bytes 1

-- Five bytes that trickle in use up the budgets to the last of them.
theorem readBy_trickle :
    Ledger.Spare {} 5 ∧ Steady trickle ∧
    ∃ k, ∀ n ≥ k,
      Ledger.readBy {} (firstAnswers trickle n) { maxFiles := some 1, maxFileSize := some 5, maxTotalBytes := some 5 }
        (.file [0x61, 0x62, 0x0A, 0xC3, 0xA9]) =
      (some ['a', 'b', '\n', 'é'], { scanned := .ofNat 1, bytes := .ofNat 5 }) := by
  have hl : Ledger.Spare {} 5 := by constructor <;> decide
  have hs : Steady trickle := by
    unfold trickle
    constructor
    case unfailing => intro k; split <;> nofun
    case fair      => exact fun k => ⟨2 * k + 1, by omega, by simp⟩
  have ⟨_, _, hr⟩ := readBy_of_steady {} { maxFiles := some 1, maxFileSize := some 5, maxTotalBytes := some 5 }
    [0x61, 0x62, 0x0A, 0xC3, 0xA9] hl
  have he : Ledger.read {} { maxFiles := some 1, maxFileSize := some 5, maxTotalBytes := some 5 }
      (.file [0x61, 0x62, 0x0A, 0xC3, 0xA9]) =
      (some ['a', 'b', '\n', 'é'], { scanned := .ofNat 1, bytes := .ofNat 5 }) := by
    decide +kernel
  exact ⟨hl, hs, he ▸ hr trickle hs⟩

end DuplicateBlocks.Discovery
