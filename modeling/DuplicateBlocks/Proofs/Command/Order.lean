import DuplicateBlocks.Proofs.Command.Items

namespace DuplicateBlocks.Command

variable {o : ValueOption} {s : Switch} {i : Item} {items items' : List Item} {value : String}
  {args args' : List String} {d d' : Draft} {k : Subject}

inductive Subject where
  | option (o : ValueOption)
  | switch (s : Switch)
  | roots
  deriving DecidableEq, Repr

def Item.subject : Item → Subject
  | .value o _ => .option o
  | .switch s  => .switch s
  | .root _    => .roots

-- The same items in another order, in which those about one subject come one after the other as before.
def Rearranged (items items' : List Item) : Prop :=
  ∀ k : Subject, items.filter (·.subject = k) = items'.filter (·.subject = k)

theorem Rearranged.mem (h : Rearranged items items') (hi : i ∈ items') : i ∈ items := by
  have hf : i ∈ items'.filter (·.subject = i.subject) := List.mem_filter.mpr ⟨hi, by simp⟩
  rw [← h i.subject] at hf
  exact (List.mem_filter.mp hf).1

theorem Rearranged.symm (h : Rearranged items items') : Rearranged items' items :=
  fun k => (h k).symm

namespace Draft

def about (d : Draft) : Subject → Draft
  | .option .rule            => { rule := d.rule }
  | .option .config          => { config := d.config }
  | .option .minLines        => { minLines := d.minLines }
  | .option .threshold       => { threshold := d.threshold }
  | .option .exclude         => { excludes := d.excludes }
  | .option .maxBlocks       => { maxBlocks := d.maxBlocks }
  | .option .maxComparisons  => { maxComparisons := d.maxComparisons }
  | .option .extension       => { extensions := d.extensions }
  | .option .ignoreDirectory => { ignoredDirectories := d.ignoredDirectories }
  | .option .maxFileSize     => { maxFileSize := d.maxFileSize }
  | .option .maxFiles        => { maxFiles := d.maxFiles }
  | .option .maxTotalBytes   => { maxTotalBytes := d.maxTotalBytes }
  | .switch s                => { switches := d.switches.filter (· = s) }
  | .roots                   => { roots := d.roots }

theorem isOn_about (d : Draft) (s : Switch) : (d.about (.switch s)).isOn s = d.isOn s := by
  simp [about, isOn]

theorem about_turnOn (d : Draft) (s : Switch) :
    (d.turnOn s).about (.switch s) = (d.about (.switch s)).turnOn s := by
  have ho := isOn_about d s
  unfold isOn at ho
  unfold turnOn
  rw [ho]
  split
  case isTrue  => rfl
  case isFalse => simp [about]

theorem about_turnOn_of_ne (h : k ≠ .switch s) (d : Draft) : (d.turnOn s).about k = d.about k := by
  unfold turnOn
  split
  case isTrue => rfl
  case isFalse =>
    cases k
    case option o => cases o <;> rfl
    case roots    => rfl
    case switch t =>
      have hn : s ≠ t := fun he => h (he ▸ rfl)
      simp [about, hn]

theorem about_set (h : d.set o value = .ok d') : (d.about (.option o)).set o value = .ok (d'.about (.option o)) := by
  cases o
  case rule | config | exclude | ignoreDirectory => cases h; rfl
  all_goals
    have ⟨x, hx, hd⟩ := exists_of_bind_eq_ok h
    cases hd
    exact congrArg (· >>= _) hx

theorem about_set_of_ne (hk : k ≠ .option o) (h : d.set o value = .ok d') : d'.about k = d.about k := by
  cases o
  case rule | config | exclude | ignoreDirectory =>
    cases h
    rcases k with o' | _ | _ <;> try cases o'
    all_goals first | rfl | exact absurd rfl hk
  all_goals
    have ⟨_, _, hd⟩ := exists_of_bind_eq_ok h
    cases hd
    rcases k with o' | _ | _ <;> try cases o'
    all_goals first | rfl | exact absurd rfl hk

theorem about_take (h : d.take i = .ok d') : (d.about i.subject).take i = .ok (d'.about i.subject) := by
  cases i
  case value o value => exact about_set h
  case switch s      => cases h; exact congrArg Except.ok (about_turnOn d s).symm
  case root path     => cases h; rfl

theorem about_take_of_ne (hk : i.subject ≠ k) (h : d.take i = .ok d') : d'.about k = d.about k := by
  cases i
  case value o value => exact about_set_of_ne hk.symm h
  case switch s      => cases h; exact about_turnOn_of_ne hk.symm d
  case root path     =>
    cases h
    rcases k with o | _ | _ <;> try cases o
    all_goals first | rfl | exact absurd rfl hk

theorem about_foldlM (h : items.foldlM take d = .ok d') (k : Subject) :
    (items.filter (·.subject = k)).foldlM take (d.about k) = .ok (d'.about k) := by
  induction items generalizing d
  case nil => cases h; rfl
  case cons i items hi =>
    rw [List.foldlM_cons] at h
    have ⟨d₁, h₁, h₂⟩ := exists_of_bind_eq_ok h
    by_cases hk : i.subject = k
    case pos =>
      cases hk
      rw [List.filter_cons_of_pos (by simp), List.foldlM_cons, about_take h₁]
      exact hi h₂
    case neg =>
      rw [List.filter_cons_of_neg (by simpa using hk), ← about_take_of_ne hk h₁]
      exact hi h₂

theorem isOk_bind_pure {ε α β : Type} (x : Except ε α) (f : α → β) :
    (x >>= fun a => (pure (f a) : Except ε β)).isOk = x.isOk := by
  cases x <;> rfl

theorem isOk_take (d d' : Draft) (i : Item) : (d.take i).isOk = (d'.take i).isOk := by
  cases i
  case switch | root => rfl
  case value o value =>
    cases o
    case rule | config | exclude | ignoreDirectory => rfl
    all_goals exact (isOk_bind_pure ..).trans (isOk_bind_pure ..).symm

theorem isOk_foldlM_iff (d : Draft) : (items.foldlM take d).isOk = true ↔ ∀ i ∈ items, (take {} i).isOk = true := by
  induction items generalizing d
  case nil => exact ⟨fun _ => nofun, fun _ => rfl⟩
  case cons i items hi =>
    rw [List.foldlM_cons, List.forall_mem_cons, ← isOk_take d {} i]
    cases d.take i
    case error e => exact ⟨nofun, fun h => nomatch h.1⟩
    case ok d₁   => exact (hi d₁).trans (iff_and_self.mpr fun _ => rfl)

-- A draft put together from what it is to hold about each subject.
def joined (parts : Subject → Draft) : Draft where
  roots              := (parts .roots).roots
  rule               := (parts (.option .rule)).rule
  config             := (parts (.option .config)).config
  minLines           := (parts (.option .minLines)).minLines
  threshold          := (parts (.option .threshold)).threshold
  excludes           := (parts (.option .exclude)).excludes
  maxBlocks          := (parts (.option .maxBlocks)).maxBlocks
  maxComparisons     := (parts (.option .maxComparisons)).maxComparisons
  extensions         := (parts (.option .extension)).extensions
  ignoredDirectories := (parts (.option .ignoreDirectory)).ignoredDirectories
  maxFileSize        := (parts (.option .maxFileSize)).maxFileSize
  maxFiles           := (parts (.option .maxFiles)).maxFiles
  maxTotalBytes      := (parts (.option .maxTotalBytes)).maxTotalBytes
  switches           := Switch.all.filter fun s => (parts (.switch s)).isOn s

theorem isOn_joined (d : Draft) : (joined d.about).isOn = d.isOn := by
  funext s
  have ha : s ∈ Switch.all := by cases s <;> decide
  rw [← isOn_about d s]
  simp [isOn, joined, ha]

-- The order in which switches were turned on is not seen in the end, and all else is put back in its place.
theorem finish_joined (d : Draft) : (joined d.about).finish = d.finish := by
  simp only [finish, conflict?, invocation, mode, isOn_joined]
  rfl

end Draft

-- Items that are spelled and arranged anew ask for the same, or they are refused as before.
theorem toOption_ofArguments_eq (h : Spells items args) (h' : Spells items' args') (hr : Rearranged items items') :
    (Request.ofArguments args).toOption = (Request.ofArguments args').toOption := by
  simp only [Request.ofArguments, readArguments_of_spells h, readArguments_of_spells h']
  have hok : (items.foldlM Draft.take {}).isOk = (items'.foldlM Draft.take {}).isOk := by
    rw [Bool.eq_iff_iff, Draft.isOk_foldlM_iff, Draft.isOk_foldlM_iff]
    exact ⟨fun ha i hi => ha i (hr.mem hi), fun ha i hi => ha i (hr.symm.mem hi)⟩
  cases hd : items.foldlM Draft.take {} <;> cases hd' : items'.foldlM Draft.take {}
  all_goals rw [hd, hd'] at hok
  case error.error    => rfl
  case error.ok       => cases hok
  case ok.error       => cases hok
  case ok.ok d d'     =>
    have ha : d.about = d'.about := by
      funext k
      have hk := Draft.about_foldlM hd k
      rw [hr k, Draft.about_foldlM hd' k] at hk
      exact (Except.ok.inj hk).symm
    have hf : d.finish = d'.finish := by rw [← Draft.finish_joined d, ha, Draft.finish_joined]
    exact congrArg Except.toOption hf

-- Values that look like a switch or hold a sign of equality, and a root that is a dash.
def scattered : List String :=
  ["--exclude", "--json", "src", "--min-lines=5", "-v", "-", "--exclude=a=b", "--min-lines", "6"]

def scatteredItems : List Item :=
  [.value .exclude "--json", .root "src", .value .minLines "5", .switch .verbose, .root "-", .value .exclude "a=b",
    .value .minLines "6"]

def gathered : List String :=
  ["--verbose", "--min-lines", "5", "--min-lines=6", "--exclude=--json", "--exclude", "a=b", "src", "-"]

def gatheredItems : List Item :=
  [.switch .verbose, .value .minLines "5", .value .minLines "6", .value .exclude "--json", .value .exclude "a=b",
    .root "src", .root "-"]

theorem spells_scattered : Spells scatteredItems scattered :=
  .cons (.apart _ _) <| .cons (.root (by decide)) <| .cons (.inline _ _) <| .cons (.switch (by decide)) <|
    .cons (.root (by decide)) <| .cons (.inline _ _) <| .cons (.apart _ _) .nil

theorem spells_gathered : Spells gatheredItems gathered :=
  .cons (.switch (by decide)) <| .cons (.apart _ _) <| .cons (.inline _ _) <| .cons (.inline _ _) <|
    .cons (.apart _ _) <| .cons (.root (by decide)) <| .cons (.root (by decide)) .nil

theorem rearranged_gathered : Rearranged scatteredItems gatheredItems := by
  intro k
  cases k
  case option o => cases o <;> rfl
  case switch s => cases s <;> rfl
  case roots    => rfl

theorem toOption_ofArguments_gathered :
    Spells scatteredItems scattered ∧ Spells gatheredItems gathered ∧ Rearranged scatteredItems gatheredItems ∧
      (Request.ofArguments scattered).toOption = (Request.ofArguments gathered).toOption ∧
      (Request.ofArguments scattered).isOk = true :=
  ⟨spells_scattered, spells_gathered, rearranged_gathered,
    toOption_ofArguments_eq spells_scattered spells_gathered rearranged_gathered, by decide +kernel⟩

end DuplicateBlocks.Command
