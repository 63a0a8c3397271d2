import DuplicateBlocks.Proofs.Command.Items

namespace DuplicateBlocks.Command

variable {o : ValueOption} {i : Item} {items : List Item} {args : List String} {d d' : Draft} {value : String}
  {file given : Option Json} {inv : Invocation}

def valuesOf (o : ValueOption) (items : List Item) : List String :=
  items.filterMap fun
    | .value o' value => if o' = o then some value else none
    | _ => none

namespace ValueOption

-- The options that end up as a single setting.
def IsSingle (o : ValueOption) : Prop :=
  o = minLines ∨ o = threshold ∨ o = maxBlocks ∨ o = maxComparisons

def given? (o : ValueOption) (raw : Options.Raw) : Option Json :=
  match o with
  | minLines       => raw.minLines
  | threshold      => raw.threshold
  | maxBlocks      => raw.maxBlocks
  | maxComparisons => raw.maxComparisons
  | _              => none

def json? (o : ValueOption) (value : String) : Option Json :=
  match o with
  | minLines | maxBlocks | maxComparisons => (natural? value).map .nat
  | threshold => (Decimal.readBinary64? value.toList).map fun x => .number (.real x)
  | _ => none

end ValueOption

-- What counts for an option beside a value in a file: its last value among the items, if it has one.
inductive Prevails (o : ValueOption) (items : List Item) (file : Option Json) : Option Json → Prop
  | flag {value : String} {v : Json} :
    (valuesOf o items).getLast? = some value → o.json? value = some v → Prevails o items file (some v)
  | file : valuesOf o items = [] → Prevails o items file file

theorem natural?_of_readNatural {option : String} {n : Nat} (h : readNatural option value = .ok n) :
    natural? value = some n := by
  unfold readNatural at h
  split at h <;> cases h
  assumption

theorem readNatural_of_readPositive {option : String} {n : Nat} (h : readPositive option value = .ok n) :
    readNatural option value = .ok n := by
  have ⟨m, hm, hn⟩ := exists_of_bind_eq_ok h
  split at hn <;> cases hn
  exact hm

theorem readPositive_of_readMinLines {option : String} {n : Nat} (h : readMinLines option value = .ok n) :
    readPositive option value = .ok n := by
  have ⟨m, hm, hn⟩ := exists_of_bind_eq_ok h
  split at hn <;> cases hn
  exact hm

theorem readBinary64?_of_readPercentage {option : String} {x : Binary64} (h : readPercentage option value = .ok x) :
    Decimal.readBinary64? value.toList = some x := by
  unfold readPercentage at h
  split at h
  case h_1 => cases h
  case h_2 y hy =>
    split at h <;> cases h
    exact hy

theorem valuesOf_cons (o : ValueOption) (i : Item) (items : List Item) :
    valuesOf o (i :: items) = valuesOf o [i] ++ valuesOf o items := by
  rw [valuesOf, ← List.singleton_append, List.filterMap_append]
  rfl

namespace Prevails

theorem orElse (h : Prevails o items none given) : Prevails o items file (given <|> file) := by
  cases h
  case flag value v hl hv => exact .flag hl hv
  case file hn            => exact .file hn

theorem cons {before : Option Json} (hi : Prevails o [i] file before) (h : Prevails o items before given) :
    Prevails o (i :: items) file given := by
  cases h
  case flag value v hl hv =>
    refine .flag ?_ hv
    rw [valuesOf_cons, List.getLast?_append, hl]
    rfl
  case file hn =>
    have hc : valuesOf o (i :: items) = valuesOf o [i] := by rw [valuesOf_cons, hn, List.append_nil]
    cases hi
    case flag value v hl hv => exact .flag (hc ▸ hl) hv
    case file hi            => exact .file (hc.trans hi)

end Prevails

namespace Draft

theorem given?_set_of_ne {o' : ValueOption} (hn : o' ≠ o) (h : d.set o' value = .ok d') :
    o.given? d'.options = o.given? d.options := by
  cases o'
  case rule | config | exclude | ignoreDirectory =>
    cases h
    cases o <;> rfl
  all_goals
    have ⟨_, _, hd⟩ := exists_of_bind_eq_ok h
    cases hd
    cases o <;> first | rfl | exact absurd rfl hn

-- A value that is taken up stands for something, and it goes before all earlier ones.
theorem given?_set (ho : o.IsSingle) (h : d.set o value = .ok d') :
    ∃ v, o.json? value = some v ∧ o.given? d'.options = some v := by
  obtain rfl | rfl | rfl | rfl := ho
  all_goals have ⟨x, hx, hd⟩ := exists_of_bind_eq_ok h; cases hd
  case inl =>
    have hv := natural?_of_readNatural (readNatural_of_readPositive (readPositive_of_readMinLines hx))
    exact ⟨.nat x, congrArg (Option.map Json.nat) hv, rfl⟩
  case inr.inl =>
    have hv := readBinary64?_of_readPercentage hx
    exact ⟨.number (.real x), congrArg (Option.map fun x => Json.number (.real x)) hv, rfl⟩
  all_goals
    have hv := natural?_of_readNatural (readNatural_of_readPositive hx)
    exact ⟨.nat x, congrArg (Option.map Json.nat) hv, rfl⟩

theorem excludes_set (h : d.set o value = .ok d') : d'.excludes = d.excludes ++ valuesOf .exclude [.value o value] := by
  cases o
  case rule | config | ignoreDirectory => cases h; exact (List.append_nil _).symm
  case exclude                         => cases h; rfl
  all_goals
    have ⟨_, _, hd⟩ := exists_of_bind_eq_ok h
    cases hd
    exact (List.append_nil _).symm

theorem turnOn_options (d : Draft) (s : Switch) : (d.turnOn s).options = d.options := by
  unfold turnOn
  split <;> rfl

theorem turnOn_excludes (d : Draft) (s : Switch) : (d.turnOn s).excludes = d.excludes := by
  unfold turnOn
  split <;> rfl

theorem prevails_take (ho : o.IsSingle) (h : d.take i = .ok d') :
    Prevails o [i] (o.given? d.options) (o.given? d'.options) := by
  cases i
  case switch s =>
    cases h
    exact turnOn_options d s ▸ .file rfl
  case root path =>
    cases h
    exact .file rfl
  case value o' value =>
    by_cases hn : o' = o
    case pos =>
      subst hn
      have ⟨v, hv, hg⟩ := given?_set ho h
      exact hg ▸ .flag (by simp [valuesOf]) hv
    case neg =>
      exact given?_set_of_ne hn h ▸ .file (by simp [valuesOf, hn])

theorem prevails_foldlM (ho : o.IsSingle) (h : items.foldlM take d = .ok d') :
    Prevails o items (o.given? d.options) (o.given? d'.options) := by
  induction items generalizing d
  case nil => cases h; exact .file rfl
  case cons i items hi =>
    rw [List.foldlM_cons] at h
    have ⟨d₁, h₁, h₂⟩ := exists_of_bind_eq_ok h
    exact (prevails_take ho h₁).cons (hi h₂)

theorem excludes_take (h : d.take i = .ok d') : d'.excludes = d.excludes ++ valuesOf .exclude [i] := by
  cases i
  case switch s       => cases h; rw [turnOn_excludes]; exact (List.append_nil _).symm
  case root path      => cases h; exact (List.append_nil _).symm
  case value o value  => exact excludes_set h

theorem excludes_foldlM (h : items.foldlM take d = .ok d') : d'.excludes = d.excludes ++ valuesOf .exclude items := by
  induction items generalizing d
  case nil => cases h; exact (List.append_nil _).symm
  case cons i items hi =>
    rw [List.foldlM_cons] at h
    have ⟨d₁, h₁, h₂⟩ := exists_of_bind_eq_ok h
    rw [hi h₂, excludes_take h₁, List.append_assoc, ← valuesOf_cons]

theorem options_of_finish (h : d.finish = .ok (.run inv)) : inv.options = d.options := by
  unfold finish at h
  split at h <;> cases h
  rfl

theorem excludePatterns_options (d : Draft) :
    d.options.excludePatterns = if d.excludes = [] then none else some (.array (d.excludes.map .string)) := by
  simp [options]

end Draft

def entries? : Option Json → Option (List Json)
  | none                  => some []
  | some (.array entries) => some entries
  | some _                => none

theorem filterMap_string?_append (entries : List Json) (flags : List String) :
    (entries ++ flags.map Json.string).filterMap Json.string? = entries.filterMap Json.string? ++ flags := by
  have hs : Json.string? ∘ Json.string = some := rfl
  rw [List.filterMap_append, List.filterMap_map, hs, List.filterMap_some]

-- An exclusion is the one by a list of patterns, and it is told which of them are not in force.
structure Judged (patterns : List String) (e : Exclusion) (warnings : List Options.Warning) : Prop where
  inForce  : e = (Exclusion.ofPatterns patterns).1
  rejected : (Exclusion.ofPatterns patterns).2.map .rejectedPattern <:+: warnings

theorem judged_array (items : List Json) :
    Judged (items.filterMap Json.string?) (Options.exclusion (some (.array items))).1
      (Options.exclusion (some (.array items))).2 := by
  refine ⟨rfl, List.IsSuffix.isInfix ?_⟩
  simp only [Options.exclusion, List.map_append]
  exact List.suffix_append ..

theorem judged_joinPatterns {entries : List Json} (h : entries? file = some entries) (d : Draft) :
    Judged (entries.filterMap Json.string? ++ d.excludes)
      (Options.exclusion (Options.Raw.joinPatterns file d.options.excludePatterns)).1
      (Options.exclusion (Options.Raw.joinPatterns file d.options.excludePatterns)).2 := by
  rw [← filterMap_string?_append, Draft.excludePatterns_options]
  unfold entries? at h
  split at h <;> cases h
  case h_1 =>
    split
    case isTrue he => rw [he]; exact ⟨rfl, List.nil_infix⟩
    case isFalse   => exact judged_array (d.excludes.map .string)
  case h_2 =>
    split
    case isTrue he => rw [he, List.map_nil, List.append_nil]; exact judged_array entries
    case isFalse   => exact judged_array (entries ++ d.excludes.map .string)

-- What the settings of a run are, with their warnings, by the items of its arguments and the options of a file. The
-- limits on code can be set in a file only.
structure Settled (items : List Item) (file : Options.Raw) (r : Options.Resolved Settings) : Prop where
  minLines       : ∃ v, Prevails .minLines items file.minLines v ∧
                    r.1.minLines = (Options.Raw.resolve { minLines := v }).1.minLines
  threshold      : ∃ v, Prevails .threshold items file.threshold v ∧
                    r.1.threshold = (Options.Raw.resolve { threshold := v }).1.threshold
  maxBlocks      : ∃ v, Prevails .maxBlocks items file.maxBlocks v ∧
                    r.1.maxBlocks = (Options.Raw.resolve { maxBlocks := v }).1.maxBlocks
  maxComparisons : ∃ v, Prevails .maxComparisons items file.maxComparisons v ∧
                    r.1.maxComparisons = (Options.Raw.resolve { maxComparisons := v }).1.maxComparisons
  code           : r.1.code = file.resolve.1.code
  excluded       : ∀ entries, entries? file.excludePatterns = some entries →
                    Judged (entries.filterMap Json.string? ++ valuesOf .exclude items) r.1.excluded r.2

theorem resolve_default : Options.Raw.resolve {} = ({}, []) := by
  have ht : Binary64.ofNat 80 = .finite false (80 * Binary64.unit) := by decide +kernel
  simp [Options.Raw.resolve, Options.minLines, Options.threshold, Options.ceiling, Options.exclusion, ht]

theorem given?_overlay (o : ValueOption) (file flags : Options.Raw) :
    o.given? (file.overlay flags) = (o.given? flags <|> o.given? file) := by
  cases o <;> rfl

theorem exclusion_infix_resolve (raw : Options.Raw) :
    (Options.exclusion raw.excludePatterns).2 <:+: raw.resolve.2 := by
  simp only [Options.Raw.resolve, List.append_assoc]
  rw [← List.append_assoc]
  exact List.infix_append' ..

theorem settled_overlay (h : items.foldlM Draft.take {} = .ok d) (file : Options.Raw) :
    Settled items file (file.overlay d.options).resolve := by
  have hp (o : ValueOption) (ho : o.IsSingle) :
      Prevails o items (o.given? file) (o.given? (file.overlay d.options)) := by
    have hn : o.given? ({} : Draft).options = none := by cases o <;> rfl
    have hd := Draft.prevails_foldlM ho h
    rw [hn] at hd
    rw [given?_overlay]
    exact hd.orElse
  exact {
    minLines       := ⟨_, hp .minLines (.inl rfl), rfl⟩
    threshold      := ⟨_, hp .threshold (.inr (.inl rfl)), rfl⟩
    maxBlocks      := ⟨_, hp .maxBlocks (.inr (.inr (.inl rfl))), rfl⟩
    maxComparisons := ⟨_, hp .maxComparisons (.inr (.inr (.inr rfl))), rfl⟩
    code           := rfl
    excluded       := by
      intro entries he
      have hj := judged_joinPatterns he d
      rw [Draft.excludes_foldlM h] at hj
      exact ⟨hj.inForce, hj.rejected.trans (exclusion_infix_resolve (file.overlay d.options))⟩
  }

-- Arguments that ask for a run spell some items, and however these are told apart they settle the run together with
-- what a file holds. Where neither has a value, there is the default.
theorem settled_of_run (h : Request.ofArguments args = .ok (.run inv)) (file : Options.Raw) :
    (∃ items, Spells items args) ∧ Options.Raw.resolve {} = ({}, []) ∧
      ∀ items, Spells items args → Settled items file (file.overlay inv.options).resolve := by
  refine ⟨exists_spells h, resolve_default, ?_⟩
  intro items hs
  rw [Request.ofArguments, readArguments_of_spells hs] at h
  have ⟨d, ht, hf⟩ := exists_of_bind_eq_ok h
  rw [Draft.options_of_finish hf]
  exact settled_overlay ht file

-- Options that come twice, with their values beside and inside them, one of which looks like a switch.
def mixed : List String :=
  ["--min-lines", "5", "--exclude=gen/", "--min-lines=7", "--exclude", "--stats", "--", "--json"]

def mixedItems : List Item :=
  [.value .minLines "5", .value .exclude "gen/", .value .minLines "7", .value .exclude "--stats", .root "--json"]

theorem spells_mixed : Spells mixedItems mixed :=
  .cons (.apart _ _) <| .cons (.inline _ _) <| .cons (.inline _ _) <| .cons (.apart _ _) <| .rest ["--json"]

theorem exists_ofArguments_mixed : ∃ inv, Request.ofArguments mixed = .ok (.run inv) := by
  have hr : (match Request.ofArguments mixed with | .ok (.run _) => true | _ => false) = true := by decide +kernel
  split at hr
  case h_1 inv h => exact ⟨inv, h⟩
  case h_2       => cases hr

def filed : Options.Raw where
  minLines := some (.nat 3)
  excludePatterns := some (.array [.string "dist", .null])
  maxBlocks := some (.nat 40)

theorem settled_mixed :
    ∃ inv, Request.ofArguments mixed = .ok (.run inv) ∧ Settled mixedItems filed (filed.overlay inv.options).resolve ∧
      Judged ["dist", "gen/", "--stats"] (filed.overlay inv.options).resolve.1.excluded
        (filed.overlay inv.options).resolve.2 := by
  have ⟨inv, h⟩ := exists_ofArguments_mixed
  have ⟨_, _, hs⟩ := settled_of_run h filed
  have hm := hs mixedItems spells_mixed
  exact ⟨inv, h, hm, hm.excluded _ rfl⟩

end DuplicateBlocks.Command
