import DuplicateBlocks.Discovery.Search
import DuplicateBlocks.Proofs.Discovery.Reading

namespace DuplicateBlocks.Discovery

-- What becomes of an event that does not end the search.
inductive Outcome where
  -- Something has gone wrong on a walk, which is entered in the way of a file that is not read.
  | fault (reason : Skip)
  | outside
  | unwanted
  | excluded
  | skipped (reason : Skip)
  -- A file that is returned, and the bytes that it was read from.
  | returned (file : Source) (content : List UInt8)
  deriving DecidableEq

namespace Outcome

def read? : Outcome → Option (Source × List UInt8)
  | returned file content => some (file, content)
  | _ => none

end Outcome

variable {o : Options} {l : Ledger} {e : Event} {es : List Event} {out : Outcome} {file : Source}
  {found : Finding} {content : List UInt8}

inductive Judged (l : Ledger) (o : Options) : Finding → Except Skip (List UInt8) → Prop
  | skipped {found : Finding} {reason : Skip} :
    (reason = .overFileBudget → l.isFull o = true) → Judged l o found (.error reason)
  | read {content : List UInt8} :
    l.isFull o = false → exceeds o.maxFileSize content.length = false →
    exceeds o.maxTotalBytes (l.bytes + .ofNat content.length).toNat = false → 0 ∉ content →
    Judged l o (.file content) (.ok content)

theorem Skip.ofFault_ne_overFileBudget (fault : Tree.Fault) : ofFault fault ≠ .overFileBudget := by
  cases fault <;> nofun

theorem Skip.ofCause_ne_overFileBudget (cause : Option Tree.Fault) : ofCause cause ≠ .overFileBudget := by
  cases cause
  case none       => nofun
  case some fault => exact ofFault_ne_overFileBudget fault

theorem judged_judgeSize {size : Nat} {opened : Except Skip (List UInt8)}
    (h : exceeds o.maxFileSize size = false → exceeds o.maxTotalBytes (l.bytes + .ofNat size).toNat = false →
      Judged l o found opened) : Judged l o found (l.judgeSize o size opened) := by
  unfold Ledger.judgeSize
  split
  case isTrue => exact .skipped nofun
  case isFalse hs =>
    split
    case isTrue     => exact .skipped nofun
    case isFalse hb => exact h (by simpa using hs) (by simpa using hb)

theorem judged (l : Ledger) (o : Options) (found : Finding) : Judged l o found (l.judge o found) := by
  unfold Ledger.judge Ledger.judgeBy
  split
  case isTrue hf => exact .skipped fun _ => hf
  case isFalse hf =>
    cases found
    case missing fault   => exact .skipped fun h => absurd h (Skip.ofFault_ne_overFileBudget fault)
    case noFile          => exact .skipped nofun
    case shut size fault =>
      exact judged_judgeSize fun _ _ => .skipped fun h => absurd h (Skip.ofFault_ne_overFileBudget fault)
    case file content =>
      refine judged_judgeSize fun hs hb => ?_
      have he := Intake.ends_run (a := l.allowance o) (.start content) (Finding.file content).readily
      generalize Intake.run .. = verdict at he
      cases he
      case read hz => exact .read (by simpa using hf) hs hb hz
      all_goals exact .skipped nofun

-- A file budget that is used up is found out before a file is looked at.
theorem judge_ne_overFileBudget (h : l.isFull o = false) : l.judge o found ≠ .error .overFileBudget := by
  intro he
  have hj := judged l o found
  rw [he] at hj
  cases hj
  case skipped hf => cases h.symm.trans (hf rfl)

namespace Ledger

def outcome? (l : Ledger) (o : Options) : Event → Option Outcome
  | .fault cause => some (.fault (.ofCause cause))
  | .outside => some .outside
  | .file path id label found =>
    if !o.wants path then some .unwanted
    else if l.isFull o then none
    else if o.excluded.excludes id then some .excluded
    else match l.judge o found with
      | .error reason => some (.skipped reason)
      | .ok content => some (.returned ⟨Path.labelled label id, Text.Utf8.decodeLossy content⟩ content)

def enter (l : Ledger) : Outcome → Ledger
  | .fault reason => l.enterSkip reason
  | .outside => { l with outsideRoot := l.outsideRoot.succ }
  | .unwanted => l
  | .excluded => { l with candidates := l.candidates.succ, excluded := l.excluded.succ }
  | .skipped reason => enterSkip { l with candidates := l.candidates.succ } reason
  | .returned _ content => enterRead { l with candidates := l.candidates.succ } content.length

end Ledger

theorem take_eq (l : Ledger) (o : Options) (e : Event) :
    l.take o e = match l.outcome? o e with
      | none => .stop (l.enterSkip .overFileBudget)
      | some out => .next (out.read?.map Prod.fst) (l.enter out) := by
  cases e
  case fault   => rfl
  case outside => rfl
  case file path id label found =>
    simp only [Ledger.take, Ledger.outcome?, Ledger.takeUp]
    by_cases hw : o.wants path
    case neg => simp [hw, Outcome.read?, Ledger.enter]
    case pos =>
      by_cases hf : l.isFull o
      case pos => simp [hw, hf]
      case neg =>
        by_cases hx : o.excluded.excludes id
        case pos => simp [hw, hf, hx, Outcome.read?, Ledger.enter]
        case neg =>
          -- The verdict on a file does not hang on the number of candidates.
          have hj : Ledger.judge { l with candidates := l.candidates.succ } o found = l.judge o found := rfl
          unfold Ledger.judge at hj ⊢
          cases h : l.judgeBy found.readily o found <;>
            simp [hw, hf, hx, h, hj, Ledger.read, Ledger.readBy, Outcome.read?, Ledger.enter]

-- The events that a search takes before it ends, with what becomes of them.
def trace (o : Options) (l : Ledger) : List Event → List (Event × Outcome)
  | [] => []
  | e :: es => match l.outcome? o e with
    | none => []
    | some out => (e, out) :: trace o (l.enter out) es

def reads (t : List (Event × Outcome)) : List (Source × List UInt8) :=
  t.filterMap fun s => s.2.read?

theorem reads_cons (e : Event) (out : Outcome) (t : List (Event × Outcome)) :
    reads ((e, out) :: t) = out.read?.toList ++ reads t := by
  cases h : out.read? <;> simp [reads, h]

theorem files_ofEvents (o : Options) (l : Ledger) (es : List Event) :
    (Haul.ofEvents o l es).files = (reads (trace o l es)).map Prod.fst := by
  induction es generalizing l
  case nil => rfl
  case cons e es hi =>
    rw [Haul.ofEvents, trace, take_eq]
    cases l.outcome? o e
    case none => rfl
    case some out => cases h : out.read? <;> simp [reads, h, hi]

-- A search that is full ends, so that no file is skipped for it.
theorem outcome?_ne_skipped_overFileBudget : l.outcome? o e ≠ some (.skipped .overFileBudget) := by
  intro h
  cases e
  case fault   => cases h
  case outside => cases h
  case file path id label found =>
    simp only [Ledger.outcome?] at h
    repeat' split at h
    all_goals cases h
    case h_1.refl hf _ _ hj => exact judge_ne_overFileBudget (by simpa using hf) hj

theorem outcome?_ne_fault_overFileBudget {reason : Skip} (h : l.outcome? o e = some (.fault reason)) :
    reason ≠ .overFileBudget := by
  cases e
  case outside     => cases h
  case fault cause => cases h; exact Skip.ofCause_ne_overFileBudget cause
  case file path id label found =>
    simp only [Ledger.outcome?] at h
    repeat' split at h
    all_goals cases h

theorem exists_outcome?_of_mem_trace {s : Event × Outcome} (h : s ∈ trace o l es) :
    s.1 ∈ es ∧ ∃ m : Ledger, m.outcome? o s.1 = some s.2 := by
  induction es generalizing l
  case nil => cases h
  case cons e es hi =>
    rw [trace] at h
    cases ho : l.outcome? o e
    case none => rw [ho] at h; cases h
    case some out =>
      rw [ho] at h
      cases h
      case head    => exact ⟨List.mem_cons_self, l, ho⟩
      case tail ht => exact ⟨List.mem_cons_of_mem _ (hi ht).1, (hi ht).2⟩

-- A file that may be returned for an event, whatever has been read before.
inductive Suitable (o : Options) : Event → Source → List UInt8 → Prop
  | intro {path id : String} {label : Option String} {content : List UInt8}
    (wanted   : o.wants path = true)
    (included : o.excluded.excludes id = false)
    (size     : exceeds o.maxFileSize content.length = false)
    (noZero   : 0 ∉ content) :
    Suitable o (.file path id label (.file content)) ⟨Path.labelled label id, Text.Utf8.decodeLossy content⟩ content

theorem of_outcome?_eq_returned (h : l.outcome? o e = some (.returned file content)) :
    Suitable o e file content ∧ l.isFull o = false ∧
      exceeds o.maxTotalBytes (l.bytes + .ofNat content.length).toNat = false := by
  cases e
  case fault   => cases h
  case outside => cases h
  case file path id label found =>
    simp only [Ledger.outcome?] at h
    repeat' split at h
    all_goals cases h
    case _ hw _ hx _ he =>
      have hj := judged l o found
      rw [he] at hj
      cases hj
      case read hf hs hb hz => exact ⟨.intro (by simpa using hw) (by simpa using hx) hs hz, hf, hb⟩

theorem outcome?_eq_returned (h : Suitable o e file content) (hf : l.isFull o = false) (hb : o.maxTotalBytes = none) :
    l.outcome? o e = some (.returned file content) := by
  cases h with | intro hw hx hs hz =>
  have hj : l.judge o (.file content) = .ok content := by
    rw [Ledger.judge, judgeBy_file (by simp [hb]) (failed_not_mem_readily _) (lt_countP_readily content)]
    have ht : exceeds none (l.bytes.toNat + content.length) = false := rfl
    simp [hf, hs, hz, hb, ht]
  simp [Ledger.outcome?, hw, hf, hx, hj]

theorem exists_suitable_of_mem_reads (h : (file, content) ∈ reads (trace o l es)) :
    ∃ e ∈ es, Suitable o e file content := by
  have ⟨s, hs, hr⟩ := List.mem_filterMap.mp h
  have ⟨he, m, ho⟩ := exists_outcome?_of_mem_trace hs
  have hout : s.2 = .returned file content := by
    cases hc : s.2 <;> rw [hc] at hr <;> cases hr
    rfl
  exact ⟨s.1, he, (of_outcome?_eq_returned (hout ▸ ho)).1⟩

theorem exists_mem_reads_of_mem_files (h : file ∈ (Haul.ofEvents o l es).files) :
    ∃ content, (file, content) ∈ reads (trace o l es) := by
  rw [files_ofEvents] at h
  have ⟨r, hr, he⟩ := List.mem_map.mp h
  exact ⟨r.2, by rwa [← he]⟩

end DuplicateBlocks.Discovery
