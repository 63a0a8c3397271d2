import DuplicateBlocks.Command.Run
import DuplicateBlocks.Proofs.Command.Precedence
import DuplicateBlocks.Proofs.Settings

namespace DuplicateBlocks

variable {n : Nat}

namespace Options

theorem number?_nat (h : n < 2 ^ 64) : number? (.nat n) = some (.whole (Binary64.nearest n)) := by
  simp [number?, Json.nat, Json.Number.toBinary64, Binary64.ofNat_eq h, Binary64.isFinite, Binary64.whole]

theorem minLines_nat (default : Nat) (h1 : 1 ≤ n) (hn : n ≤ maxMinLines) :
    minLines default (some (.nat n)) = (n, []) := by
  have hm : maxMinLines < 2 ^ 53 := by decide
  have hx : number? (.nat n) = some (.whole n) := by
    rw [number?_nat (by omega), Binary64.nearest_eq_self_iff.mpr (Binary64.isExact_of_lt (by omega))]
  have hb : ¬(Binary64.whole n).lt (.ofNat 1) = true := by
    rw [Binary64.ofNat_of_lt (by decide), Binary64.whole_lt_whole]
    exact Nat.not_lt.mpr h1
  have ha : ¬(Binary64.ofNat maxMinLines).lt (.whole n) = true := by
    rw [Binary64.ofNat_of_lt hm, Binary64.whole_lt_whole]
    exact Nat.not_lt.mpr hn
  rw [minLines_of_number? default hx, Binary64.floor_whole, if_neg hb, if_neg ha, Binary64.wholePart_whole]

theorem ceiling_nat (key : Key) (default : Nat) (h1 : 1 ≤ n) (hn : n < 2 ^ 64) :
    ceiling key default (some (.nat n)) = (min (Binary64.nearest n) Tally.cap, []) := by
  have hl : (Binary64.ofNat 1).le (.whole (Binary64.nearest n)) = true := by
    rw [Binary64.ofNat_of_lt (by decide), Binary64.whole_le_whole]
    exact Binary64.one_le_nearest h1
  rw [ceiling, number?_nat hn, Option.filter_some, if_pos hl]
  exact congrArg (fun m => (min m Tally.cap, [])) (Binary64.wholePart_whole (Binary64.nearest n))

end Options

namespace Command

variable {o : ValueOption} {items : List Item} {args : List String} {d d' : Draft} {value : String} {inv : Invocation}

-- How a ceiling is set if `n` is given for it.
structure Approximates (n setting : Nat) : Prop where
  exact_iff : setting = n ↔ Binary64.IsExact n ∨ n = Tally.cap
  close     : 2 ^ 53 * Nat.dist setting n ≤ n

theorem approximates_ceiling (hn : n < 2 ^ 64) : Approximates n (min (Binary64.nearest n) Tally.cap) := by
  have hd := Binary64.dist_nearest_le n
  have hc : Binary64.nearest Tally.cap = 2 ^ 64 := by decide +kernel
  have hl : n ≤ Tally.cap := by rw [Tally.cap]; omega
  constructor
  case close =>
    rw [Nat.dist] at hd ⊢
    omega
  case exact_iff =>
    rw [← Binary64.nearest_eq_self_iff]
    constructor
    case mp  => omega
    case mpr =>
      intro h
      cases h
      case inl h => omega
      case inr h => rw [h, hc]; rfl

theorem one_le_of_readPositive {option : String} (h : readPositive option value = .ok n) : 1 ≤ n := by
  have ⟨m, _, hn⟩ := exists_of_bind_eq_ok h
  split at hn <;> cases hn
  omega

theorem le_of_readMinLines {option : String} (h : readMinLines option value = .ok n) : n ≤ Options.maxMinLines := by
  have ⟨m, _, hn⟩ := exists_of_bind_eq_ok h
  split at hn <;> cases hn
  omega

theorem lt_of_natural? (h : natural? value = some n) : n < 2 ^ 64 := by
  unfold natural? at h
  extract_lets digits m at h
  split at h
  case isTrue  => cases h
  case isFalse =>
    split at h
    case isTrue hl => exact Option.some.inj h ▸ hl
    case isFalse   => cases h

theorem exists_set_of_mem_valuesOf (h : items.foldlM Draft.take d = .ok d') (hv : value ∈ valuesOf o items) :
    ∃ d₁ d₂ : Draft, d₁.set o value = .ok d₂ := by
  have hm : .value o value ∈ items := by
    have ⟨i, hi, he⟩ := List.mem_filterMap.mp hv
    cases i
    case switch | root   => cases he
    case value o' value' =>
      have ⟨ho, he⟩ : o' = o ∧ value' = value := by simpa using he
      exact ho ▸ he ▸ hi
  clear hv
  induction items generalizing d
  case nil => cases hm
  case cons i items hi =>
    rw [List.foldlM_cons] at h
    have ⟨d₁, h₁, h₂⟩ := exists_of_bind_eq_ok h
    cases hm
    case head    => exact ⟨d, d₁, h₁⟩
    case tail hm => exact hi h₂ hm

theorem given?_of_getLast? (ho : o.IsSingle) (h : items.foldlM Draft.take {} = .ok d)
    (hl : (valuesOf o items).getLast? = some value) : o.given? d.options = o.json? value := by
  have hp := Draft.prevails_foldlM ho h
  generalize o.given? d.options = given at hp
  cases hp
  case flag hl' hv =>
    cases Option.some.inj (hl.symm.trans hl')
    exact hv.symm
  case file hn => simp [hn] at hl

theorem exists_given?_eq_nat (ho : o = .minLines ∨ o = .maxBlocks ∨ o = .maxComparisons)
    (h : items.foldlM Draft.take {} = .ok d) (hl : (valuesOf o items).getLast? = some value) :
    ∃ n, natural? value = some n ∧ 1 ≤ n ∧ (o = .minLines → n ≤ Options.maxMinLines) ∧
      o.given? d.options = some (.nat n) := by
  have hi : o.IsSingle := by obtain rfl | rfl | rfl := ho <;> simp [ValueOption.IsSingle]
  have ⟨_, _, hs⟩ := exists_set_of_mem_valuesOf h (List.mem_of_getLast? hl)
  rw [given?_of_getLast? hi h hl]
  obtain rfl | rfl | rfl := ho
  all_goals have ⟨n, hr, _⟩ := exists_of_bind_eq_ok hs
  case inl =>
    have hp := readPositive_of_readMinLines hr
    have hn := natural?_of_readNatural (readNatural_of_readPositive hp)
    exact ⟨n, hn, one_le_of_readPositive hp, fun _ => le_of_readMinLines hr, congrArg (Option.map Json.nat) hn⟩
  all_goals
    have hn := natural?_of_readNatural (readNatural_of_readPositive hr)
    exact ⟨n, hn, one_le_of_readPositive hr, nofun, congrArg (Option.map Json.nat) hn⟩

-- What the numbers among the items become as settings.
structure Effective (items : List Item) (s : Settings) : Prop where
  minLines       : ∀ value, (valuesOf .minLines items).getLast? = some value →
                    ∃ n, natural? value = some n ∧ s.minLines = n
  maxBlocks      : ∀ value, (valuesOf .maxBlocks items).getLast? = some value →
                    ∃ n, natural? value = some n ∧ Approximates n s.maxBlocks
  maxComparisons : ∀ value, (valuesOf .maxComparisons items).getLast? = some value →
                    ∃ n, natural? value = some n ∧ Approximates n s.maxComparisons

theorem effective_resolve (h : items.foldlM Draft.take {} = .ok d) : Effective items d.options.resolve.1 := by
  constructor
  case minLines =>
    intro value hl
    obtain ⟨n, hn, h1, hm, hg⟩ := exists_given?_eq_nat (.inl rfl) h hl
    have hg : d.options.minLines = some (.nat n) := hg
    refine ⟨n, hn, ?_⟩
    simp only [Options.Raw.resolve, hg, Options.minLines_nat _ h1 (hm rfl)]
  case maxBlocks =>
    intro value hl
    obtain ⟨n, hn, h1, _, hg⟩ := exists_given?_eq_nat (.inr (.inl rfl)) h hl
    have hg : d.options.maxBlocks = some (.nat n) := hg
    refine ⟨n, hn, ?_⟩
    simp only [Options.Raw.resolve, hg, Options.ceiling_nat _ _ h1 (lt_of_natural? hn)]
    exact approximates_ceiling (lt_of_natural? hn)
  case maxComparisons =>
    intro value hl
    obtain ⟨n, hn, h1, _, hg⟩ := exists_given?_eq_nat (.inr (.inr rfl)) h hl
    have hg : d.options.maxComparisons = some (.nat n) := hg
    refine ⟨n, hn, ?_⟩
    simp only [Options.Raw.resolve, hg, Options.ceiling_nat _ _ h1 (lt_of_natural? hn)]
    exact approximates_ceiling (lt_of_natural? hn)

-- Arguments that ask for a run without a file of options settle it by the last values they give.
theorem effective_of_run (h : Request.ofArguments args = .ok (.run inv)) (hc : inv.config = none) (w : World) :
    (∃ items, Spells items args) ∧ ∃ raw, inv.rawOptions w = .ok raw ∧
      ∀ items, Spells items args → Effective items raw.resolve.1 := by
  refine ⟨exists_spells h, inv.options, by simp [Invocation.rawOptions, hc], ?_⟩
  intro items hs
  rw [Request.ofArguments, readArguments_of_spells hs] at h
  obtain ⟨d, ht, hf⟩ := exists_of_bind_eq_ok h
  rw [Draft.options_of_finish hf]
  exact effective_resolve ht

def Request.run? : Request → Option Invocation
  | run inv => some inv
  | _       => none

theorem exists_run_of_any {r : Except UsageError Request} {p : Invocation → Bool}
    (h : (r.toOption.bind Request.run?).any p = true) : ∃ inv, r = .ok (.run inv) ∧ p inv = true := by
  cases r
  case error => cases h
  case ok q =>
    cases q
    case help | version => cases h
    case run inv        => exact ⟨inv, rfl, h⟩

def generous : List String :=
  ["--max-blocks", "5", "--max-comparisons=18446744073709551615", "--min-lines", "1000",
    "--max-blocks", "9007199254740994"]

def generousItems : List Item :=
  [.value .maxBlocks "5", .value .maxComparisons "18446744073709551615", .value .minLines "1000",
    .value .maxBlocks "9007199254740994"]

theorem spells_generous : Spells generousItems generous :=
  .cons (.apart _ _) <| .cons (.inline _ _) <| .cons (.apart _ _) <| .cons (.apart _ _) .nil

theorem exists_ofArguments_generous :
    ∃ inv, Request.ofArguments generous = .ok (.run inv) ∧ inv.config = none := by
  have hr : ((Request.ofArguments generous).toOption.bind Request.run?).any (·.config == none) = true := by
    decide +kernel
  obtain ⟨inv, h, hc⟩ := exists_run_of_any hr
  exact ⟨inv, h, by simpa using hc⟩

theorem effective_generous :
    ∃ inv, Request.ofArguments generous = .ok (.run inv) ∧ inv.config = none ∧
      ∃ raw, inv.rawOptions { top := .directory [], directory := "/" } = .ok raw ∧
        raw.resolve.1.minLines = 1000 ∧ raw.resolve.1.maxBlocks = 9007199254740994 ∧
        raw.resolve.1.maxComparisons = Tally.cap := by
  have ⟨inv, h, hc⟩ := exists_ofArguments_generous
  have ⟨_, raw, hr, he⟩ := effective_of_run h hc { top := .directory [], directory := "/" }
  have he := he generousItems spells_generous
  refine ⟨inv, h, hc, raw, hr, ?minLines, ?maxBlocks, ?maxComparisons⟩
  case minLines =>
    have ⟨n, hn, hs⟩ := he.minLines "1000" (by decide +kernel)
    have hv : natural? "1000" = some 1000 := by decide +kernel
    exact hs.trans (Option.some.inj (hn.symm.trans hv))
  case maxBlocks =>
    have ⟨n, hn, hs⟩ := he.maxBlocks "9007199254740994" (by decide +kernel)
    have hv : natural? "9007199254740994" = some 9007199254740994 := by decide +kernel
    cases Option.some.inj (hn.symm.trans hv)
    exact hs.exact_iff.mpr (.inl ⟨4503599627370497, 1, by decide, by decide⟩)
  case maxComparisons =>
    have ⟨n, hn, hs⟩ := he.maxComparisons "18446744073709551615" (by decide +kernel)
    have hv : natural? "18446744073709551615" = some Tally.cap := by decide +kernel
    cases Option.some.inj (hn.symm.trans hv)
    exact hs.exact_iff.mpr (.inr rfl)

-- The number after 2^53 needs 54 bits: one block less is admitted than was asked for.
theorem maxBlocks_resolve_ne :
    natural? "9007199254740993" = some 9007199254740993 ∧
      ∃ inv, Request.ofArguments ["--max-blocks", "9007199254740993"] = .ok (.run inv) ∧ inv.config = none ∧
        inv.options.resolve.1.maxBlocks = 9007199254740992 := by
  refine ⟨by decide +kernel, ?_⟩
  have hr : ((Request.ofArguments ["--max-blocks", "9007199254740993"]).toOption.bind Request.run?).any
      (fun inv => inv.config == none && inv.options.resolve.1.maxBlocks == 9007199254740992) = true := by
    decide +kernel
  obtain ⟨inv, h, hc⟩ := exists_run_of_any hr
  exact ⟨inv, h, by simpa using hc⟩

end Command
end DuplicateBlocks
