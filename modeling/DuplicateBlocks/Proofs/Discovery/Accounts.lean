import DuplicateBlocks.Proofs.Discovery.Origins
import Mathlib.Algebra.GroupWithZero.Nat
import Mathlib.Data.List.Forall2

namespace DuplicateBlocks.Discovery

variable {top : Tree.Node} {here root : String} {o : Options} {l : Ledger} {e : Event} {es : List Event}
  {out : Outcome} {found : List (String × Tree.Spot)} {paths : List String}

inductive Counter where
  | candidates
  | scanned
  | bytes
  | notFound
  | permissionDenied
  | tooLarge
  | binary
  | excluded
  | outsideRoot
  | walkErrors
  | overByteBudget

def Counter.all : List Counter :=
  [.candidates, .scanned, .bytes, .notFound, .permissionDenied, .tooLarge, .binary, .excluded, .outsideRoot, .walkErrors,
    .overByteBudget]

theorem Counter.mem_all (c : Counter) : c ∈ Counter.all := by
  cases c <;> simp [Counter.all]

def Ledger.counter (l : Ledger) : Counter → Tally
  | .candidates => l.candidates
  | .scanned => l.scanned
  | .bytes => l.bytes
  | .notFound => l.notFound
  | .permissionDenied => l.permissionDenied
  | .tooLarge => l.tooLarge
  | .binary => l.binary
  | .excluded => l.excluded
  | .outsideRoot => l.outsideRoot
  | .walkErrors => l.walkErrors
  | .overByteBudget => l.overByteBudget

-- How far a reason for not reading a file moves a counter on.
def Skip.amount : Skip → Counter → Nat
  | notFound, .notFound => 1
  | permissionDenied, .permissionDenied => 1
  | unreadable, .walkErrors => 1
  | tooLarge, .tooLarge => 1
  | overByteBudget, .overByteBudget => 1
  | binary, .binary => 1
  | _, _ => 0

def Outcome.amount : Outcome → Counter → Nat
  | .fault reason, c => reason.amount c
  | .outside, .outsideRoot => 1
  | .excluded, .candidates => 1
  | .excluded, .excluded => 1
  | .skipped _, .candidates => 1
  | .skipped reason, c => reason.amount c
  | .returned .., .candidates => 1
  | .returned .., .scanned => 1
  | .returned _ content, .bytes => content.length
  | _, _ => 0

theorem counter_enterSkip (l : Ledger) (reason : Skip) (c : Counter) :
    (l.enterSkip reason).counter c = l.counter c + .ofNat (reason.amount c) := by
  cases reason <;> cases c <;> first | rfl | exact (Tally.add_zero _).symm

theorem counter_enter (l : Ledger) (out : Outcome) (c : Counter) :
    (l.enter out).counter c = l.counter c + .ofNat (out.amount c) := by
  cases out
  case fault reason   => exact counter_enterSkip l reason c
  case skipped reason =>
    rw [Ledger.enter, counter_enterSkip]
    cases c
    case candidates => cases reason <;> exact Tally.add_zero _
    all_goals rfl
  all_goals cases c <;> first | rfl | exact (Tally.add_zero _).symm

def total (t : List (Event × Outcome)) (c : Counter) : Nat :=
  (t.map fun s => s.2.amount c).sum

theorem counter_ofEvents (o : Options) (l : Ledger) (es : List Event) (c : Counter) :
    (Haul.ofEvents o l es).ledger.counter c = l.counter c + .ofNat (total (trace o l es) c) := by
  induction es generalizing l
  case nil => exact (Tally.add_zero _).symm
  case cons e es hi =>
    rw [Haul.ofEvents, trace, take_eq]
    cases l.outcome? o e
    case none     => cases c <;> exact (Tally.add_zero _).symm
    case some out =>
      simp only [total, List.map_cons, List.sum_cons]
      rw [Tally.ofNat_add, ← Tally.add_assoc, ← counter_enter]
      exact hi (l.enter out)

-- No counter comes to its end.
def Fits (t : List (Event × Outcome)) : Prop :=
  ∀ c, total t c ≤ Tally.cap

instance (t : List (Event × Outcome)) : Decidable (Fits t) :=
  decidable_of_iff (∀ c ∈ Counter.all, total t c ≤ Tally.cap) ⟨fun h c => h c c.mem_all, fun h c _ => h c⟩

theorem toNat_counter_ofEvents (h : Fits (trace o {} es)) (c : Counter) :
    ((Haul.ofEvents o {} es).ledger.counter c).toNat = total (trace o {} es) c := by
  have hz : (({} : Ledger).counter c).toNat = 0 := by cases c <;> rfl
  have := h c
  rw [counter_ofEvents, Tally.toNat_add, Tally.toNat_ofNat, hz]
  omega

def Event.isFault : Event → Bool
  | .fault _ => true
  | _ => false

def faults (t : List (Event × Outcome)) : Nat :=
  t.countP fun s => s.1.isFault

theorem skip_balance {reason : Skip} (h : reason ≠ .overFileBudget) :
    reason.amount .candidates = 0 ∧ reason.amount .scanned = 0 ∧ reason.amount .excluded = 0 ∧
      reason.amount .notFound + reason.amount .permissionDenied + reason.amount .tooLarge + reason.amount .binary +
        reason.amount .walkErrors + reason.amount .overByteBudget = 1 := by
  cases reason
  case overFileBudget => exact absurd rfl h
  all_goals exact ⟨rfl, rfl, rfl, rfl⟩

-- A candidate, or something that goes wrong on a walk, is entered in one of the other counters.
theorem amount_balance (h : l.outcome? o e = some out) :
    out.amount .candidates + (if e.isFault then 1 else 0) =
      out.amount .scanned + out.amount .excluded + out.amount .notFound + out.amount .permissionDenied +
        out.amount .tooLarge + out.amount .binary + out.amount .walkErrors + out.amount .overByteBudget := by
  have hne : out ≠ .skipped .overFileBudget := fun ho => outcome?_ne_skipped_overFileBudget (ho ▸ h)
  cases e
  case outside => cases h; rfl
  case fault cause =>
    cases h
    obtain ⟨hc, hs, hx, hb⟩ := skip_balance (Skip.ofCause_ne_overFileBudget cause)
    simp only [Outcome.amount, Event.isFault, if_true, hc, hs, hx]
    omega
  case file path id label found =>
    simp only [Ledger.outcome?] at h
    repeat' split at h
    all_goals cases h
    case h_1.refl reason _ =>
      have hreason : reason ≠ .overFileBudget := fun hr => hne (hr ▸ rfl)
      obtain ⟨-, hs, hx, hb⟩ := skip_balance hreason
      simp only [Outcome.amount, Event.isFault, hs, hx, Bool.false_eq_true, if_false]
      omega
    all_goals rfl

theorem total_balance (o : Options) (l : Ledger) (es : List Event) :
    let t := trace o l es
    total t .candidates + faults t =
      total t .scanned + total t .excluded + total t .notFound + total t .permissionDenied + total t .tooLarge +
        total t .binary + total t .walkErrors + total t .overByteBudget := by
  induction es generalizing l
  case nil => rfl
  case cons e es hi =>
    rw [trace]
    cases h : l.outcome? o e
    case none => rfl
    case some out =>
      have hb := amount_balance h
      have hi := hi (l.enter out)
      simp only [total, faults, List.map_cons, List.sum_cons, List.countP_cons] at hi ⊢
      omega

theorem amount_scanned (out : Outcome) : out.amount .scanned = out.read?.toList.length := by
  cases out
  case fault reason   => cases reason <;> rfl
  case skipped reason => cases reason <;> rfl
  all_goals rfl

theorem amount_bytes (out : Outcome) : out.amount .bytes = (out.read?.toList.map fun r => r.2.length).sum := by
  cases out
  case fault reason   => cases reason <;> rfl
  case skipped reason => cases reason <;> rfl
  all_goals rfl

theorem total_scanned (t : List (Event × Outcome)) : total t .scanned = (reads t).length := by
  simp [total, reads, amount_scanned, List.filterMap_eq_flatMap_toList, List.length_flatMap]

theorem total_bytes (t : List (Event × Outcome)) : total t .bytes = ((reads t).map fun r => r.2.length).sum := by
  simp [total, reads, amount_bytes, List.filterMap_eq_flatMap_toList, List.flatMap_def, List.sum_flatten,
    Function.comp_def]

-- What every outcome keeps of a ledger, and the end of the search as well, holds in the end.
theorem ledger_ofEvents (now last : Ledger → Prop)
    (step : ∀ l e out, now l → l.outcome? o e = some out → now (l.enter out))
    (stop : ∀ l, now l → last (l.enterSkip .overFileBudget)) (done : ∀ l, now l → last l) (h : now l) :
    last (Haul.ofEvents o l es).ledger := by
  induction es generalizing l
  case nil => exact done l h
  case cons e es hi =>
    rw [Haul.ofEvents, take_eq]
    cases ho : l.outcome? o e
    case none     => exact stop l h
    case some out => exact hi (step l e out h ho)

structure Ledger.Within (o : Options) (l : Ledger) : Prop where
  files : ∀ n ∈ o.maxFiles, l.scanned.toNat ≤ n
  bytes : ∀ n ∈ o.maxTotalBytes, l.bytes.toNat ≤ n

theorem within_enter (hw : l.Within o) (h : l.outcome? o e = some out) : (l.enter out).Within o := by
  cases out
  case returned file content =>
    have ⟨_, hf, hb⟩ := of_outcome?_eq_returned h
    constructor
    case files =>
      intro n hn
      have hlt : l.scanned.toNat < n := by simpa [Ledger.isFull, Option.mem_def.mp hn] using hf
      have hs : (l.enter (.returned file content)).scanned.toNat = min (l.scanned.toNat + 1) Tally.cap := rfl
      omega
    case bytes => exact exceeds_eq_false_iff.mp hb
  case fault reason   => cases reason <;> exact ⟨hw.files, hw.bytes⟩
  case skipped reason => cases reason <;> exact ⟨hw.files, hw.bytes⟩
  all_goals exact ⟨hw.files, hw.bytes⟩

theorem overFileBudget_enter (h : l.outcome? o e = some out) : (l.enter out).overFileBudget = l.overFileBudget := by
  cases out
  case fault reason =>
    have hne : reason ≠ .overFileBudget := outcome?_ne_fault_overFileBudget h
    cases reason
    case overFileBudget => exact absurd rfl hne
    all_goals rfl
  case skipped reason =>
    cases reason
    case overFileBudget => exact absurd h outcome?_ne_skipped_overFileBudget
    all_goals rfl
  all_goals rfl

theorem within_ofEvents (o : Options) (es : List Event) :
    (Haul.ofEvents o {} es).ledger.Within o ∧ (Haul.ofEvents o {} es).ledger.overFileBudget.toNat ≤ 1 := by
  refine ledger_ofEvents (fun l => l.Within o ∧ l.overFileBudget = 0)
    (fun l => l.Within o ∧ l.overFileBudget.toNat ≤ 1) ?_ ?_ ?_ ?_
  · exact fun l e out h ho => ⟨within_enter h.1 ho, (overFileBudget_enter ho).trans h.2⟩
  · intro l h
    refine ⟨⟨h.1.files, h.1.bytes⟩, ?_⟩
    change l.overFileBudget.succ.toNat ≤ 1
    rw [h.2]
    decide
  · intro l h
    refine ⟨h.1, ?_⟩
    rw [h.2]
    decide
  · exact ⟨⟨fun _ _ => Nat.zero_le _, fun _ _ => Nat.zero_le _⟩, rfl⟩

-- A search that keeps to its budgets and has accounted for everything: `faults` things could not be walked, and
-- `contents` are the bytes of the files that are returned.
structure Accounted (o : Options) (faults : Nat) (contents : List (List UInt8)) (haul : Haul) : Prop where
  scanned        : haul.ledger.scanned.toNat = haul.files.length
  maxFiles       : ∀ n ∈ o.maxFiles, haul.ledger.scanned.toNat ≤ n
  bytes          : haul.ledger.bytes.toNat = (contents.map List.length).sum
  maxTotalBytes  : ∀ n ∈ o.maxTotalBytes, haul.ledger.bytes.toNat ≤ n
  maxFileSize    : ∀ content ∈ contents, ∀ n ∈ o.maxFileSize, content.length ≤ n
  noZero         : ∀ content ∈ contents, 0 ∉ content
  overFileBudget : haul.ledger.overFileBudget.toNat ≤ 1
  balance        :
    haul.ledger.candidates.toNat + faults =
      haul.ledger.scanned.toNat + haul.ledger.excluded.toNat + haul.ledger.notFound.toNat +
        haul.ledger.permissionDenied.toNat + haul.ledger.tooLarge.toNat + haul.ledger.binary.toNat +
        haul.ledger.walkErrors.toNat + haul.ledger.overByteBudget.toNat

def contents (t : List (Event × Outcome)) : List (List UInt8) :=
  (reads t).map Prod.snd

theorem accounted_ofEvents (o : Options) (es : List Event) (h : Fits (trace o {} es)) :
    Accounted o (faults (trace o {} es)) (contents (trace o {} es)) (Haul.ofEvents o {} es) := by
  have ⟨hw, ho⟩ := within_ofEvents o es
  have hc := toNat_counter_ofEvents h
  have hsuits : ∀ content ∈ contents (trace o {} es), (∀ n ∈ o.maxFileSize, content.length ≤ n) ∧ 0 ∉ content := by
    intro content hm
    have ⟨⟨file, _⟩, hr, he⟩ := List.mem_map.mp hm
    subst he
    have ⟨e, _, hs⟩ := exists_suitable_of_mem_reads hr
    obtain ⟨_, _, hsize, hzero⟩ := hs
    exact ⟨exceeds_eq_false_iff.mp hsize, hzero⟩
  constructor
  case scanned        => rw [files_ofEvents, List.length_map, ← total_scanned]; exact hc .scanned
  case maxFiles       => exact hw.files
  case bytes          => rw [contents, List.map_map]; exact (hc .bytes).trans (total_bytes _)
  case maxTotalBytes  => exact hw.bytes
  case maxFileSize    => exact fun content hm => (hsuits content hm).1
  case noZero         => exact fun content hm => (hsuits content hm).2
  case overFileBudget => exact ho
  case balance        =>
    have hb := total_balance o {} es
    simp only [← hc] at hb
    exact hb

-- A search that is not begun, as it may not return a file.
theorem accounted_refused (o : Options) : Accounted o 0 [] { ledger := Ledger.enterSkip {} .overFileBudget } := by
  constructor <;> simp [Ledger.enterSkip, Tally.toNat_succ, Tally.cap]

def searchTrace (top : Tree.Node) (here : String) (o : Options) (found : List (String × Tree.Spot)) :
    List (Event × Outcome) :=
  if o.maxFiles == some 0 then [] else trace o {} (allEvents top here o found)

def stagedTrace (top : Tree.Node) (o : Options) (root : String) (paths : List String) : List (Event × Outcome) :=
  trace o {} (paths.map (stagedEvent top root))

theorem faults_stagedTrace (top : Tree.Node) (o : Options) (root : String) (paths : List String) :
    faults (stagedTrace top o root paths) = 0 := by
  refine List.countP_eq_zero.mpr ?_
  intro s hs
  have ⟨path, _, he⟩ := List.mem_map.mp (exists_outcome?_of_mem_trace hs).1
  rw [← he, stagedEvent]
  split <;> simp [Event.isFault]

theorem forall₂_reads {r : Source → List UInt8 → Prop} {t : List (Event × Outcome)}
    (h : ∀ s ∈ reads t, r s.1 s.2) : List.Forall₂ r ((reads t).map Prod.fst) (contents t) := by
  rw [contents, List.forall₂_map_left_iff, List.forall₂_map_right_iff, List.forall₂_same]
  exact h

def single : Options :=
  { unruled with maxFiles := some 1 }

-- A file that cannot be opened, a directory that cannot be listed, and one in which nothing can be looked up.
def locked : Tree.Node :=
  .directory [("a", .directory [("x.ts", .file [] (some .permissionDenied))]),
    ("b", .directory [("y.ts", .file [])] { list? := some .permissionDenied }),
    ("c", .directory [("z.ts", .file [])] { search? := some .permissionDenied })]

def lockedRoots : List (String × Tree.Spot) :=
  [("/a", ⟨["a"], .directory [("x.ts", .file [] (some .permissionDenied))]⟩),
    ("/b", ⟨["b"], .directory [("y.ts", .file [])] { list? := some .permissionDenied }⟩),
    ("/c", ⟨["c"], .directory [("z.ts", .file [])] { search? := some .permissionDenied }⟩)]

theorem leads_locked : Leads locked ["/a", "/b", "/c"] lockedRoots := by
  refine ⟨rfl, ?_⟩
  simp only [lockedRoots, List.forall_mem_cons]
  exact ⟨findRoot_eq_ok (by decide +kernel) rfl, findRoot_eq_ok (by decide +kernel) rfl,
    findRoot_eq_ok (by decide +kernel) rfl, nofun⟩

end DuplicateBlocks.Discovery
