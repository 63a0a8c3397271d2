import DuplicateBlocks.Proofs.Exclusion.Growth
import DuplicateBlocks.Proofs.Glob
import DuplicateBlocks.Proofs.Path

namespace DuplicateBlocks

variable {name n : String} {segs : List String}

namespace Path

theorem endsIn_joinSegments (hl : segs.getLast? = some n) :
    Glob.EndsIn (Text.Utf8.encode n.toList) (Text.Utf8.encode (joinSegments segs).toList) := by
  obtain ⟨front, rfl⟩ := List.getLast?_eq_some_iff.mp hl
  cases hf : front.isEmpty
  case true  =>
    rw [List.isEmpty_iff.mp hf]
    exact .inl rfl
  case false =>
    rw [joinSegments_concat (List.isEmpty_eq_false_iff.mp hf)]
    refine .inr ⟨Text.Utf8.encode (joinSegments front).toList, ?_⟩
    rw [String.toList_append, String.toList_append, Text.Utf8.encode_append, Text.Utf8.encode_append, List.append_assoc]
    rfl

end Path

namespace Ignore

variable {c : Char} {cs rest line : List Char} {onlyDirectories isDirectory : Bool}

-- A character of plain names.
def isLiteral (c : Char) : Bool :=
  c.isAlphanum || c == '_' || c == '-' || c == '.'

theorem ne_of_isLiteral (h : isLiteral c = true) {mark : Char} (hm : isLiteral mark = false) : c ≠ mark := by
  rintro rfl
  rw [h] at hm
  cases hm

theorem toNat_of_isAlphanum (h : c.isAlphanum = true) : 0x30 ≤ c.toNat ∧ c.toNat ≤ 0x7A := by
  -- The three ranges, as they are in the definition.
  have hr : (decide (c.val ≥ 'A'.val ∧ c.val ≤ 'Z'.val) || decide (c.val ≥ 'a'.val) && decide (c.val ≤ 'z'.val) ||
      decide (c.val ≥ '0'.val) && decide (c.val ≤ '9'.val)) = true := h
  simp only [Bool.or_eq_true, Bool.and_eq_true, decide_eq_true_eq, UInt32.le_iff_toNat_le, ge_iff_le,
    Char.toNat_val] at hr
  obtain (hr | hr) | hr := hr
  all_goals exact ⟨Nat.le_trans (by decide) hr.1, Nat.le_trans hr.2 (by decide)⟩

theorem toNat_of_isLiteral (h : isLiteral c = true) : 0x2D ≤ c.toNat ∧ c.toNat ≤ 0x7A := by
  simp only [isLiteral, Bool.or_eq_true, beq_iff_eq] at h
  obtain ((h | rfl) | rfl) | rfl := h
  case inl.inl.inl =>
    have ⟨hl, hu⟩ := toNat_of_isAlphanum h
    exact ⟨Nat.le_trans (by decide) hl, hu⟩
  all_goals decide

theorem isBlank_of_isLiteral (h : isLiteral c = true) : Text.isBlank c = false := by
  have ⟨hl, hu⟩ := toNat_of_isLiteral h
  simp only [Text.isBlank, Bool.or_eq_false_iff, Bool.and_eq_false_iff, decide_eq_false_iff_not, beq_eq_false_iff_ne]
  omega

theorem isOrdinary_of_isLiteral (h : isLiteral c = true) : Glob.IsOrdinary c := by
  have hn : ['*', '\\', '?', '\x7b', '\x7d', ',', '['].all (fun mark => !isLiteral mark) = true := by decide
  intro hm
  have hc := List.all_eq_true.mp hn c hm
  rw [h] at hc
  cases hc

theorem not_mem_of_isLiteral (h : ∀ c ∈ cs, isLiteral c = true) {mark : Char} (hm : isLiteral mark = false) :
    mark ∉ cs :=
  fun hc => ne_of_isLiteral (h mark hc) hm rfl

-- The line of a name, with a slash behind it if it is for directories only.
def nameLine (onlyDirectories : Bool) (cs : List Char) : List Char :=
  cs ++ if onlyDirectories then ['/'] else []

theorem exists_nameLine_eq_cons (onlyDirectories : Bool) (hc : cs ≠ []) (h : ∀ c ∈ cs, isLiteral c = true) :
    ∃ c rest, isLiteral c = true ∧ nameLine onlyDirectories cs = c :: rest := by
  obtain ⟨c, rest, rfl⟩ := List.exists_cons_of_ne_nil hc
  exact ⟨c, _, h c List.mem_cons_self, rfl⟩

theorem not_mem_nameLine (h : ∀ c ∈ cs, isLiteral c = true) {mark : Char} (hm : isLiteral mark = false)
    (hs : mark ≠ '/') : mark ∉ nameLine onlyDirectories cs := by
  have hc := not_mem_of_isLiteral h hm
  cases onlyDirectories <;> simp [nameLine, hc, hs]

def Rule.ofName (onlyDirectories : Bool) (cs : List Char) : Rule where
  isException := false
  onlyDirectories := onlyDirectories
  glob := .leading :: cs.map .literal

theorem significant_eq_self (h : ∀ c ∈ line.getLast?, Text.isBlank c = false) : significant line = line := by
  unfold significant
  split
  case isTrue => rfl
  case isFalse =>
    rw [Text.trimEnd]
    cases hl : line.reverse
    case nil => simpa using hl.symm
    case cons c back =>
      have hb := h c (by rw [← List.head?_reverse, hl]; rfl)
      rw [List.dropWhile_cons_of_neg (by simp [hb]), ← hl, List.reverse_reverse]

theorem significant_nameLine (h : ∀ c ∈ cs, isLiteral c = true) :
    significant (nameLine onlyDirectories cs) = nameLine onlyDirectories cs := by
  apply significant_eq_self
  intro c hc
  cases onlyDirectories
  case false =>
    rw [nameLine, if_neg Bool.false_ne_true, List.append_nil] at hc
    exact isBlank_of_isLiteral (h c (List.mem_of_getLast? hc))
  case true =>
    rw [nameLine, if_pos rfl, List.getLast?_concat] at hc
    cases hc
    decide

theorem unmark_of_isLiteral (h : isLiteral c = true) : unmark (c :: rest) = (false, false, c :: rest) := by
  have he : c ≠ '\\' := ne_of_isLiteral h rfl
  have hx : c ≠ '!' := ne_of_isLiteral h rfl
  have hs : c ≠ '/' := ne_of_isLiteral h rfl
  unfold unmark
  split <;> simp_all

theorem dropSlash_nameLine (h : ∀ c ∈ cs, isLiteral c = true) :
    dropSlash (nameLine onlyDirectories cs) = (onlyDirectories, cs) := by
  have he : '\\' ∉ cs.reverse := by simpa using not_mem_of_isLiteral h rfl
  have hs : '/' ∉ cs.reverse := by simpa using not_mem_of_isLiteral h rfl
  cases onlyDirectories
  case false =>
    rw [nameLine, if_neg Bool.false_ne_true, List.append_nil]
    unfold dropSlash
    split <;> simp_all
  case true =>
    rw [nameLine, if_pos rfl, dropSlash, List.reverse_concat]
    split
    case h_1 hb => exact absurd (by simp [(List.cons.inj hb).2]) he
    case h_2 hb => rw [← (List.cons.inj hb).2, List.reverse_reverse]
    case h_3 hn => exact absurd rfl (hn _)

theorem globText_of_isLiteral (hc : cs ≠ []) (h : ∀ c ∈ cs, isLiteral c = true) :
    globText false cs = ['*', '*', '/'] ++ cs := by
  have hs : '/' ∉ cs := not_mem_of_isLiteral h rfl
  have hn : '*' ∉ cs := not_mem_of_isLiteral h rfl
  have hp : ['*', '*', '/'].isPrefixOf cs = false := by
    rw [← Bool.not_eq_true, List.isPrefixOf_iff_prefix]
    exact fun hp => hn (hp.subset (by simp))
  have he : (cs == ['*', '*']) = false := beq_false_of_ne fun he => hn (by simp [he])
  -- The last character is one of the name.
  have hd : ¬['/', '*', '*'] <:+ ['*', '*', '/'] ++ cs := by
    rintro ⟨front, hf⟩
    have hl := congrArg List.getLast? hf
    rw [List.getLast?_append_of_ne_nil _ (List.cons_ne_nil _ _), List.getLast?_append_of_ne_nil _ hc] at hl
    exact hn (List.mem_of_getLast? hl.symm)
  simpa [globText, hs, hp, he] using hd

theorem ofLine_nameLine (hc : cs ≠ []) (h : ∀ c ∈ cs, isLiteral c = true) :
    Rule.ofLine (nameLine onlyDirectories cs) = .ok (some (.ofName onlyDirectories cs)) := by
  have ⟨c, rest, hl, he⟩ := exists_nameLine_eq_cons onlyDirectories hc h
  have hu : unmark (nameLine onlyDirectories cs) = (false, false, nameLine onlyDirectories cs) := by
    rw [he, unmark_of_isLiteral hl]
  have hh : ¬((nameLine onlyDirectories cs).head? == some '#') = true := by
    simpa [he] using ne_of_isLiteral hl rfl
  have hn : ¬(nameLine onlyDirectories cs).isEmpty = true := by
    simp [he]
  have hg : Glob.parse (['*', '*', '/'] ++ cs) = .ok (.leading :: cs.map .literal) :=
    Glob.parse_anywhere fun c hc => isOrdinary_of_isLiteral (h c hc)
  simp only [Rule.ofLine, significant_nameLine h, if_neg hh, if_neg hn, hu, dropSlash_nameLine h,
    globText_of_isLiteral hc h, hg]
  rfl

theorem covers_ofName_iff (hn : Path.IsName name) (hs : segs ≠ []) (h : ∀ seg ∈ segs, Path.IsName seg) :
    (Rule.ofName onlyDirectories name.toList).covers isDirectory (Text.Utf8.encode (Path.joinSegments segs).toList) =
        true ↔ (isDirectory = true ∨ onlyDirectories = false) ∧ segs.getLast? = some name := by
  have hl : segs.getLast? = some (segs.getLast hs) := List.getLast?_eq_some_getLast hs
  have hlast : Path.IsName (segs.getLast hs) := h _ (List.getLast_mem hs)
  have hslash : ∀ {n : String}, Path.IsName n → Glob.slash ∉ Text.Utf8.encode n.toList := fun hn hm =>
    hn.1 ((Text.Utf8.ofNat_mem_encode_iff (by decide)).mp hm)
  have hend := Path.endsIn_joinSegments hl
  have hname : Glob.endsInName (Text.Utf8.encode (Path.joinSegments segs).toList) = true := by
    rw [Glob.endsInName, hend.takeWhile_reverse (hslash hlast), bne_iff_ne]
    intro hu
    have hd : Text.Utf8.encode (segs.getLast hs).toList = Text.Utf8.encode "..".toList := List.reverse_inj.mp hu
    have ⟨_, _, _, hup⟩ := hlast
    exact hup (String.toList_inj.mp (Text.Utf8.encode_injective hd))
  have hacc : Glob.accepts (.leading :: name.toList.map .literal) (Text.Utf8.encode (Path.joinSegments segs).toList) =
      true ↔ segs.getLast? = some name := by
    have ⟨_, hne, _⟩ := hn
    rw [Glob.accepts_leading_iff (by simpa using hne), hl, Option.some_inj]
    constructor
    case mp =>
      intro he
      exact String.toList_inj.mp (Text.Utf8.encode_injective (hend.unique he (hslash hlast) (hslash hn)))
    case mpr =>
      intro he
      exact he ▸ hend
  rw [Rule.covers, Bool.and_eq_true, Rule.ofName, Glob.covers_eq_accepts _ hname, hacc]
  simp

theorem verdict?_ofName_iff (hn : Path.IsName name) (hs : segs ≠ []) (h : ∀ seg ∈ segs, Path.IsName seg) :
    verdict? [.ofName onlyDirectories name.toList] isDirectory (Path.joinSegments segs) = some .ignored ↔
      (isDirectory = true ∨ onlyDirectories = false) ∧ segs.getLast? = some name := by
  rw [← covers_ofName_iff hn hs h]
  simp [verdict?, Rule.ofName]

theorem setFault?_ofName (hc : cs ≠ []) (h : ∀ c ∈ cs, isLiteral c = true) :
    setFault? [Rule.ofName onlyDirectories cs] = none := by
  have hk : Glob.kind (Rule.ofName onlyDirectories cs).glob = .name :=
    Glob.kind_leading hc (not_mem_of_isLiteral h rfl)
  simp [setFault?, hk]

end Ignore

namespace Exclusion

variable {e : Exclusion} {p : String} {onlyDirectories : Bool}

-- A name of letters, digits, `_`, `-` and dots.
structure IsLiteral (name : String) : Prop where
  literal  : ∀ c ∈ name.toList, Ignore.isLiteral c = true
  nonempty : name ≠ ""
  ne_here  : name ≠ "."
  ne_up    : name ≠ ".."

theorem IsLiteral.isName (h : IsLiteral name) : Path.IsName name :=
  ⟨Ignore.not_mem_of_isLiteral h.literal rfl, h.nonempty, h.ne_here, h.ne_up⟩

theorem IsLiteral.toList_ne_nil (h : IsLiteral name) : name.toList ≠ [] := by
  simpa using h.nonempty

-- Names that make up an id relative to where a search started.
structure Relative (segs : List String) : Prop where
  isName  : ∀ seg ∈ segs, Path.IsName seg
  slashed : ∀ seg ∈ segs, '\\' ∉ seg.toList
  noDrive : ∀ c rest, c.isAlpha = true → (Path.joinSegments segs).toList ≠ c :: ':' :: rest

theorem IsLiteral.relative (h : IsLiteral name) : Relative [name] := by
  constructor
  case isName  => simpa using h.isName
  case slashed =>
    have hm : '\\' ∉ name.toList := Ignore.not_mem_of_isLiteral h.literal rfl
    simpa using hm
  case noDrive =>
    intro c rest _ he
    have hj : Path.joinSegments [name] = name := by simp [Path.joinSegments]
    have hm : ':' ∉ name.toList := Ignore.not_mem_of_isLiteral h.literal rfl
    rw [← hj, he] at hm
    exact hm (List.mem_cons_of_mem _ List.mem_cons_self)

theorem Relative.hasDrive (h : Relative segs) : hasDrive (Path.joinSegments segs).toList = false := by
  rw [← Bool.not_eq_true]
  unfold Exclusion.hasDrive
  split
  case h_1 c rest he => exact fun hc => h.noDrive c rest hc he
  case h_2           => exact Bool.false_ne_true

theorem Relative.dropLead (h : Relative segs) :
    dropLead (Path.joinSegments segs).toList = (Path.joinSegments segs).toList := by
  cases hs : segs.isEmpty
  case true  => rw [List.isEmpty_iff.mp hs]; rfl
  case false =>
    have hseg := Path.segments_joinSegments (List.isEmpty_eq_false_iff.mp hs) fun seg hm => (h.isName seg hm).1
    -- What is dropped would be the first segment.
    have hne : ∀ front rest, (Path.joinSegments segs).toList = front ++ '/' :: rest →
        ∀ cs ∈ Text.pieces (· == '/') front, Path.IsName (String.ofList cs) := by
      intro front rest he cs hc
      apply h.isName
      rw [← hseg, Path.segments, he, Text.pieces_append_cons_sep (· == '/') rfl]
      exact List.mem_map_of_mem (List.mem_append_left _ hc)
    unfold Exclusion.dropLead
    split
    case h_1 rest he =>
      obtain ⟨_, _, hd, _⟩ := hne ['.'] rest he ['.'] (by decide)
      exact absurd rfl hd
    case h_2 rest he =>
      obtain ⟨_, hn, _⟩ := hne [] rest he [] (by decide)
      exact absurd rfl hn
    case h_3 => rfl

theorem Relative.matchPath (h : Relative segs) : matchPath (Path.joinSegments segs) = Path.joinSegments segs := by
  have hs : segs.map Path.slashed = segs :=
    (List.map_congr_left fun seg hm => Path.slashed_eq_self (h.slashed seg hm)).trans (List.map_id segs)
  have hm : (Path.joinSegments segs).toList.map (fun c => if c == '\\' then '/' else c) =
      (Path.joinSegments segs).toList := by
    rw [← String.toList_map, ← Path.slashed, Path.slashed_joinSegments, hs]
  simp only [Exclusion.matchPath, hm, h.hasDrive, Bool.false_eq_true, if_false, h.dropLead, String.ofList_toList]

theorem mem_iff_getLast?_or : name ∈ segs ↔ segs.getLast? = some name ∨ name ∈ segs.dropLast := by
  obtain rfl | ⟨front, last, rfl⟩ := List.eq_nil_or_concat segs
  case inl => simp
  case inr => simp [or_comm, eq_comm]

-- A name occurs where a beginning ends in it.
theorem mem_iff_exists_getLast?_eq_some : name ∈ segs ↔ ∃ top, top <+: segs ∧ top.getLast? = some name := by
  constructor
  case mp =>
    intro h
    have ⟨front, back, he⟩ := List.append_of_mem h
    exact ⟨front ++ [name], ⟨back, by simp [he]⟩, List.getLast?_concat⟩
  case mpr =>
    rintro ⟨top, ht, hl⟩
    exact ht.subset (List.mem_of_getLast? hl)

theorem exists_ancestor_iff (hn : Path.IsName name) (hs : segs ≠ []) (h : ∀ seg ∈ segs, Path.IsName seg) :
    (∃ dir ∈ Path.ancestors (Path.joinSegments segs), dir ≠ "" ∧
        Ignore.verdict? [.ofName onlyDirectories name.toList] true dir = some .ignored) ↔ name ∈ segs.dropLast := by
  have hname : ∀ top, top <+: segs.dropLast → ∀ seg ∈ top, Path.IsName seg := fun top ht seg hm =>
    h seg ((List.dropLast_prefix segs).subset (ht.subset hm))
  simp only [mem_iff_exists_getLast?_eq_some, Path.mem_ancestors_joinSegments_iff hs h]
  constructor
  case mp =>
    rintro ⟨_, ⟨top, ht, rfl⟩, hne, hv⟩
    have htop : top ≠ [] := by rintro rfl; exact hne rfl
    exact ⟨top, ht, ((Ignore.verdict?_ofName_iff hn htop (hname top ht)).mp hv).2⟩
  case mpr =>
    rintro ⟨top, ht, hl⟩
    have htop : top ≠ [] := by rintro rfl; cases hl
    exact ⟨_, ⟨top, ht, rfl⟩, Path.joinSegments_ne_empty htop (hname top ht),
      (Ignore.verdict?_ofName_iff hn htop (hname top ht)).mpr ⟨.inl rfl, hl⟩⟩

-- The last name is matched as a file, those in front of it as directories.
theorem excludes_joinSegments_iff (hr : e.rules = [.ofName onlyDirectories name.toList]) (hn : Path.IsName name)
    (h : Relative segs) :
    e.excludes (Path.joinSegments segs) = true ↔
      (onlyDirectories = false ∧ segs.getLast? = some name) ∨ name ∈ segs.dropLast := by
  cases hs : segs.isEmpty
  case true =>
    rw [List.isEmpty_iff.mp hs]
    simp [excludes, Path.joinSegments, Exclusion.matchPath, Exclusion.hasDrive, Exclusion.dropLead]
  case false =>
    have hs := List.isEmpty_eq_false_iff.mp hs
    simp only [excludes, h.matchPath, hr, Bool.and_eq_true, Bool.or_eq_true, List.any_eq_true, bne_iff_ne, beq_iff_eq]
    rw [and_iff_right (Path.joinSegments_ne_empty hs h.isName), Ignore.verdict?_ofName_iff hn hs h.isName,
      exists_ancestor_iff hn hs h.isName]
    simp

theorem not_isAbsolute_nameLine (hn : IsLiteral name) :
    ¬isAbsolute (Ignore.nameLine onlyDirectories name.toList) = true := by
  have ⟨c, rest, hc, he⟩ := Ignore.exists_nameLine_eq_cons onlyDirectories hn.toList_ne_nil hn.literal
  have hd : ':' ∉ Ignore.nameLine onlyDirectories name.toList := Ignore.not_mem_nameLine hn.literal rfl (by decide)
  rw [he] at hd ⊢
  rw [isAbsolute_iff]
  intro h
  cases h
  case slash     => exact absurd hc (by decide)
  case backslash => exact absurd hc (by decide)
  case drive     => exact hd (List.mem_cons_of_mem _ List.mem_cons_self)

theorem not_isClimbing_nameLine (hn : IsLiteral name) :
    ¬isClimbing (Ignore.nameLine onlyDirectories name.toList) = true := by
  have hs : ∀ c ∈ name.toList, ¬(c == '/' || c == '\\') = true := by
    intro c hc
    have h₁ : c ≠ '/' := Ignore.ne_of_isLiteral (hn.literal c hc) rfl
    have h₂ : c ≠ '\\' := Ignore.ne_of_isLiteral (hn.literal c hc) rfl
    simp [h₁, h₂]
  have hu : name.toList ≠ "..".toList := mt String.toList_inj.mp hn.ne_up
  rw [isClimbing, Ignore.nameLine, Text.pieces_append_of_not_sep _ hs]
  cases onlyDirectories
  case false => simpa [Text.pieces_nil] using hu.symm
  case true  => simpa [Text.pieces_cons_sep, Text.pieces_nil] using hu.symm

theorem defect?_nameLine (hn : IsLiteral name) (hp : p.toList = Ignore.nameLine onlyDirectories name.toList) (i : Nat) :
    defect? i p = if maxLength < p.toList.length then some (.tooLong i p.toList.length) else none := by
  have hb : ¬p.toList.all Text.isBlank = true := by
    obtain ⟨c, hc⟩ := List.exists_mem_of_ne_nil _ hn.toList_ne_nil
    rw [hp, Ignore.nameLine, List.all_append, List.all_eq_false.mpr ⟨c, hc, ?_⟩]
    · simp
    · simpa using Ignore.isBlank_of_isLiteral (hn.literal c hc)
  have ha : ¬isAbsolute p.toList = true := by
    rw [hp]
    exact not_isAbsolute_nameLine hn
  have hc : ¬isClimbing p.toList = true := by
    rw [hp]
    exact not_isClimbing_nameLine hn
  simp only [defect?, if_neg hb, if_neg ha, if_neg hc]

theorem rule?_nameLine (hn : IsLiteral name) (hp : p.toList = Ignore.nameLine onlyDirectories name.toList) :
    rule? p = some (.ofName onlyDirectories name.toList) := by
  rw [rule?, hp, Ignore.ofLine_nameLine hn.toList_ne_nil hn.literal]
  rfl

theorem rules_ofPatterns_nameLine (hn : IsLiteral name)
    (hp : p.toList = Ignore.nameLine onlyDirectories name.toList) :
    (ofPatterns [p]).1.rules =
      if p.toList.length ≤ maxLength then [.ofName onlyDirectories name.toList] else [] := by
  have hc : (compiled [p]).rules =
      if p.toList.length ≤ maxLength then [.ofName onlyDirectories name.toList] else [] := by
    have he : entries [p] = [(p, 0)] := rfl
    have hd := defect?_nameLine hn hp 0
    rw [rules_compiled, he]
    split at hd
    case isTrue hl  => simp [suitable, hd, Nat.not_le.mpr hl]
    case isFalse hl => simp [suitable, hd, Nat.not_lt.mp hl, rule?_nameLine hn hp]
  have hf : Ignore.setFault? (compiled [p]).rules = none := by
    rw [hc]
    split
    case isTrue  => exact Ignore.setFault?_ofName hn.toList_ne_nil hn.literal
    case isFalse => rfl
  rw [fst_ofPatterns hf, hc]

theorem excludes_nameLine_iff (hn : IsLiteral name) (hp : p.toList = Ignore.nameLine onlyDirectories name.toList)
    (h : Relative segs) :
    (ofPatterns [p]).1.excludes (Path.joinSegments segs) = true ↔
      p.toList.length ≤ maxLength ∧
        ((onlyDirectories = false ∧ segs.getLast? = some name) ∨ name ∈ segs.dropLast) := by
  have hr := rules_ofPatterns_nameLine hn hp
  split at hr
  case isTrue hl  => rw [excludes_joinSegments_iff hr hn.isName h, and_iff_right hl]
  case isFalse hl => simp [excludes_of_rules_eq_nil hr, hl]

-- A name excludes the ids in which it occurs, and with a slash behind it those in which it occurs before the last name,
-- as long as the pattern is not too long.
theorem excludes_literal_iff (hn : IsLiteral name) (h : Relative segs) :
    ((ofPatterns [name]).1.excludes (Path.joinSegments segs) = true ↔
        name.toList.length ≤ maxLength ∧ name ∈ segs) ∧
      ((ofPatterns [name ++ "/"]).1.excludes (Path.joinSegments segs) = true ↔
        name.toList.length < maxLength ∧ name ∈ segs.dropLast) := by
  have hfile : name.toList = Ignore.nameLine false name.toList := by simp [Ignore.nameLine]
  have hdir : (name ++ "/").toList = Ignore.nameLine true name.toList := by simp [Ignore.nameLine]
  have hm : name ∈ segs ↔ segs.getLast? = some name ∨ name ∈ segs.dropLast := mem_iff_getLast?_or
  have hl : (name ++ "/").toList.length ≤ maxLength ↔ name.toList.length < maxLength := by
    rw [String.toList_append, List.length_append]
    exact Nat.succ_le_iff
  rw [excludes_nameLine_iff hn hfile h, excludes_nameLine_iff hn hdir h, hm, hl]
  simp

theorem excludes_dist :
    IsLiteral "dist" ∧ Relative ["src", "dist", "a.ts"] ∧
      (ofPatterns ["dist"]).1.excludes "src/dist/a.ts" = true ∧
      (ofPatterns ["dist/"]).1.excludes "src/dist/a.ts" = true := by
  have hn : IsLiteral "dist" := ⟨List.all_eq_true.mp (by decide), by decide, by decide, by decide⟩
  have h : Relative ["src", "dist", "a.ts"] := by
    refine ⟨by simp [Path.IsName], by decide, ?_⟩
    intro c rest _ he
    cases (List.cons.inj (List.cons.inj he).2).1
  have ⟨hf, hd⟩ := excludes_literal_iff hn h
  exact ⟨hn, h, hf.mpr (by decide), hd.mpr (by decide)⟩

def overlong : String :=
  String.ofList (List.replicate (maxLength + 1) 'a')

theorem toList_overlong : overlong.toList = List.replicate (maxLength + 1) 'a' :=
  String.toList_ofList

theorem overlong_ne {n : String} (h : n.toList.length ≤ maxLength) : overlong ≠ n := by
  rintro rfl
  rw [toList_overlong, List.length_replicate] at h
  exact Nat.not_succ_le_self _ h

theorem isLiteral_overlong : IsLiteral overlong := by
  refine ⟨?_, overlong_ne (by decide), overlong_ne (by decide), overlong_ne (by decide)⟩
  intro c hc
  rw [toList_overlong] at hc
  rw [List.eq_of_mem_replicate hc]
  rfl

-- A name longer than any pattern may be does not exclude the id that consists of it.
theorem excludes_overlong_eq_false :
    IsLiteral overlong ∧ Relative [overlong] ∧ overlong ∈ [overlong] ∧
      (ofPatterns [overlong]).1.excludes (Path.joinSegments [overlong]) = false := by
  have hn := isLiteral_overlong
  have hp : overlong.toList = Ignore.nameLine false overlong.toList := by simp [Ignore.nameLine]
  refine ⟨hn, hn.relative, List.mem_cons_self, ?_⟩
  rw [← Bool.not_eq_true, excludes_nameLine_iff hn hp hn.relative]
  exact fun h => overlong_ne h.1 rfl

end Exclusion
end DuplicateBlocks
