import DuplicateBlocks.Proofs.Tree

namespace DuplicateBlocks.Tree

def Admits (top : Node) (here : List String) (seg : String) (entries : List (String × Node)) : Prop :=
  ∃ bars : Bars, top.at? here = some (.directory entries bars) ∧ bars.against? seg = none

-- The position that segments lead to from another one, by at most so many links.
inductive Reaches (top : Node) (followLast : Bool) : Nat → List String → List String → List String → Prop
  | here {links : Nat} {here : List String} : Reaches top followLast links here [] here
  | noise {links : Nat} {seg : String} {here rest names : List String} {entries : List (String × Node)}
    (directory : Admits top here seg entries)
    (noise     : Path.isNoise seg = true)
    (next      : Reaches top followLast links here rest names) :
    Reaches top followLast links here (seg :: rest) names
  | up {links : Nat} {here rest names : List String} {entries : List (String × Node)}
    (directory : Admits top here ".." entries)
    (next      : Reaches top followLast links here.dropLast rest names) :
    Reaches top followLast links here (".." :: rest) names
  | name {links : Nat} {seg : String} {here rest names : List String} {entries : List (String × Node)} {node : Node}
    (directory : Admits top here seg entries)
    (ordinary  : IsOrdinary seg)
    (entry     : entries.lookup seg = some node)
    (noLink    : ∀ target, node ≠ .link target)
    (next      : Reaches top followLast links (here ++ [seg]) rest names) :
    Reaches top followLast links here (seg :: rest) names
  | link {links : Nat} {seg target : String} {here rest names : List String} {entries : List (String × Node)}
    (directory : Admits top here seg entries)
    (ordinary  : IsOrdinary seg)
    (entry     : entries.lookup seg = some (.link target))
    (more      : rest ≠ [] ∨ followLast = true)
    (next      : Reaches top followLast links (if Path.isAbsolute target then [] else here)
      (Path.segments target ++ rest) names) :
    Reaches top followLast (links + 1) here (seg :: rest) names
  -- A link at the end that is not to be followed.
  | last {links : Nat} {seg target : String} {here : List String} {entries : List (String × Node)}
    (directory : Admits top here seg entries)
    (ordinary  : IsOrdinary seg)
    (entry     : entries.lookup seg = some (.link target))
    (stay      : followLast = false) :
    Reaches top followLast links here [seg] (here ++ [seg])

variable {top node around : Node} {followLast : Bool} {links : Nat} {here names : List String}
  {segs front back rest : List String} {seg target path : String} {spot : Spot} {entries : List (String × Node)}

theorem Admits.at?_concat (h : Admits top here seg entries) (he : entries.lookup seg = some node) :
    top.at? (here ++ [seg]) = some node := by
  obtain ⟨bars, hd, -⟩ := h
  exact at?_concat_of_lookup hd he

-- Whatever a stage is reached for is reached from its start.
def Stage.Leads (top : Node) (followLast : Bool) (here segs : List String) : Stage → Prop
  | arrived names    => ∀ links, Reaches top followLast links here segs names
  | jump there others => ∀ links names,
    Reaches top followLast links there others names → Reaches top followLast (links + 1) here segs names

variable {stage : Stage}

namespace Stage.Leads

theorem noise (hd : Admits top here seg entries) (hn : Path.isNoise seg = true)
    (h : stage.Leads top followLast here rest) : stage.Leads top followLast here (seg :: rest) := by
  cases stage
  case arrived => exact fun links => .noise hd hn (h links)
  case jump    => exact fun links names hr => .noise hd hn (h links names hr)

theorem up (hd : Admits top here ".." entries) (h : stage.Leads top followLast here.dropLast rest) :
    stage.Leads top followLast here (".." :: rest) := by
  cases stage
  case arrived => exact fun links => .up hd (h links)
  case jump    => exact fun links names hr => .up hd (h links names hr)

theorem name (hd : Admits top here seg entries) (ho : IsOrdinary seg) (he : entries.lookup seg = some node)
    (hk : ∀ target, node ≠ .link target) (h : stage.Leads top followLast (here ++ [seg]) rest) :
    stage.Leads top followLast here (seg :: rest) := by
  cases stage
  case arrived => exact fun links => .name hd ho he hk (h links)
  case jump    => exact fun links names hr => .name hd ho he hk (h links names hr)

end Stage.Leads

theorem leads_of_advance (h : advance top followLast here segs = .ok stage) : stage.Leads top followLast here segs := by
  fun_induction advance top followLast here segs
  case case1               => cases h; exact fun _ => .here
  case case3 hd hb hn hi   => exact .noise ⟨_, hd, hb⟩ hn (hi h)
  case case4 hd hb _ hu hi => exact eq_of_beq hu ▸ .up ⟨_, hd, eq_of_beq hu ▸ hb⟩ (hi h)
  case case7 seg rest _ _ hd hb hn hu hl _ he hs =>
    have ho : IsOrdinary seg := ⟨by simpa using hn, by simpa using hu, Nat.not_lt.mp hl⟩
    obtain ⟨hr, hf⟩ : rest = [] ∧ followLast = false := by simpa using hs
    cases h
    subst hr
    exact fun _ => .last ⟨_, hd, hb⟩ ho he hf
  case case8 seg rest _ _ hd hb hn hu hl _ he hs =>
    have ho : IsOrdinary seg := ⟨by simpa using hn, by simpa using hu, Nat.not_lt.mp hl⟩
    have hm : rest ≠ [] ∨ followLast = true := by
      simpa only [Bool.and_eq_true, List.isEmpty_iff, Bool.not_eq_true', not_and_or, Bool.not_eq_false] using hs
    cases h
    exact fun _ _ hr => .link ⟨_, hd, hb⟩ ho he hm hr
  case case9 seg _ _ _ hd hb hn hu hl _ hk he hi =>
    have ho : IsOrdinary seg := ⟨by simpa using hn, by simpa using hu, Nat.not_lt.mp hl⟩
    exact .name ⟨_, hd, hb⟩ ho he (fun t ht => hk t ht) (hi h)
  all_goals cases h

theorem reaches_of_follow (h : follow top followLast links here segs = .ok names) :
    Reaches top followLast links here segs names := by
  induction links generalizing here segs
  case zero =>
    rw [follow.eq_def] at h
    split at h
    case h_1      => cases h
    case h_2 hs   => cases h; exact leads_of_advance hs 0
    case h_3      => cases h
  case succ links hi =>
    rw [follow.eq_def] at h
    split at h
    case h_1      => cases h
    case h_2 hs   => cases h; exact leads_of_advance hs _
    case h_3 hs   => exact leads_of_advance hs _ _ (hi h)

-- As long as no link has to be followed, the way goes on as from the next position.
theorem follow_congr {there : List String} (h : advance top followLast here segs = advance top followLast there rest) :
    follow top followLast links here segs = follow top followLast links there rest := by
  rw [follow.eq_def, follow.eq_def, h]

theorem follow_of_reaches (h : Reaches top followLast links here segs names) :
    follow top followLast links here segs = .ok names := by
  induction h
  case here => exact follow_of_advance (by rw [advance])
  case noise hd hn _ hi =>
    obtain ⟨bars, hd, hb⟩ := hd
    rw [← hi]
    exact follow_congr (by rw [advance, hd]; simp [hb, hn])
  case up hd _ hi =>
    obtain ⟨bars, hd, hb⟩ := hd
    rw [← hi]
    exact follow_congr (by rw [advance, hd]; simp [hb, Path.isNoise])
  case name node hd ho he hk _ hi =>
    obtain ⟨bars, hd, hb⟩ := hd
    obtain ⟨hn, hu, hl⟩ := ho
    rw [← hi]
    refine follow_congr ?_
    rw [advance, hd]
    cases node
    case link target => exact absurd rfl (hk target)
    case file        => simp [hb, hn, hu, Nat.not_lt.mpr hl, he]
    case directory   => simp [hb, hn, hu, Nat.not_lt.mpr hl, he]
  case link seg target here rest _ _ hd ho he hm _ hi =>
    obtain ⟨bars, hd, hb⟩ := hd
    obtain ⟨hn, hu, hl⟩ := ho
    have hs : ¬(rest = [] ∧ followLast = false) := by simpa [-not_and, not_and_or] using hm
    have ha : advance top followLast here (seg :: rest) =
        .ok (.jump (if Path.isAbsolute target then [] else here) (Path.segments target ++ rest)) := by
      rw [advance, hd]
      simp [hb, hn, hu, Nat.not_lt.mpr hl, he, hs]
    rw [follow, ha]
    exact hi
  case last hd ho he hs =>
    obtain ⟨bars, hd, hb⟩ := hd
    obtain ⟨hn, hu, hl⟩ := ho
    refine follow_of_advance ?_
    rw [advance, hd]
    simp [hb, hn, hu, Nat.not_lt.mpr hl, he, hs]

theorem reaches_of_find (h : find top followLast path = .ok spot) :
    Reaches top followLast maxLinks [] (Path.segments path) spot.names := by
  simp only [find, bind, Except.bind, throw, throwThe, MonadExceptOf.throw, pure, Except.pure] at h
  repeat' split at h
  all_goals cases h
  exact reaches_of_follow ‹_›

theorem find_of_reaches (hn : path ≠ "") (hz : Char.ofNat 0 ∉ path.toList) (hb : bytesOf path ≤ maxPath)
    (h : Reaches top followLast maxLinks [] (Path.segments path) names) (ha : top.at? names = some node) :
    find top followLast path = .ok ⟨names, node⟩ := by
  simp [find, hn, hz, Nat.not_lt.mpr hb, follow_of_reaches h, ha, bind, Except.bind, pure, Except.pure]

theorem Reaches.follow_last (h : Reaches top false links here segs names)
    (hl : ∀ target, top.at? names ≠ some (.link target)) : Reaches top true links here segs names := by
  induction h
  case here                  => exact .here
  case noise hd hn _ hi      => exact .noise hd hn (hi hl)
  case up hd _ hi            => exact .up hd (hi hl)
  case name hd ho he hk _ hi => exact .name hd ho he hk (hi hl)
  case link hd ho he _ _ hi  => exact .link hd ho he (.inr rfl) (hi hl)
  case last target _ _ hd _ he _ =>
    exact absurd (hd.at?_concat he) (hl target)

theorem Reaches.unique {other : List String} (h : Reaches top followLast links here segs names)
    (ho : Reaches top followLast links here segs other) : names = other :=
  Except.ok.inj ((follow_of_reaches h).symm.trans (follow_of_reaches ho))

-- One half of a path after the other. A link at the end of the first half is followed, as it is not at the end.
theorem Reaches.of_append (hb : back ≠ []) (h : Reaches top followLast links here (front ++ back) names) :
    ∃ left mid, Reaches top true links here front mid ∧ Reaches top followLast left mid back names := by
  generalize hs : front ++ back = segs at h
  induction h generalizing front
  case here => exact absurd (List.append_eq_nil_iff.mp hs).2 hb
  case noise hd hn hr hi =>
    rcases List.append_eq_cons_iff.mp hs with ⟨rfl, rfl⟩ | ⟨front, rfl, ht⟩
    · exact ⟨_, _, .here, .noise hd hn hr⟩
    · have ⟨left, mid, hm, hr⟩ := hi ht.symm
      exact ⟨left, mid, .noise hd hn hm, hr⟩
  case up hd hr hi =>
    rcases List.append_eq_cons_iff.mp hs with ⟨rfl, rfl⟩ | ⟨front, rfl, ht⟩
    · exact ⟨_, _, .here, .up hd hr⟩
    · have ⟨left, mid, hm, hr⟩ := hi ht.symm
      exact ⟨left, mid, .up hd hm, hr⟩
  case name hd ho he hk hr hi =>
    rcases List.append_eq_cons_iff.mp hs with ⟨rfl, rfl⟩ | ⟨front, rfl, ht⟩
    · exact ⟨_, _, .here, .name hd ho he hk hr⟩
    · have ⟨left, mid, hm, hr⟩ := hi ht.symm
      exact ⟨left, mid, .name hd ho he hk hm, hr⟩
  case link target _ rest _ _ hd ho he hl hr hi =>
    rcases List.append_eq_cons_iff.mp hs with ⟨rfl, rfl⟩ | ⟨front, rfl, ht⟩
    · exact ⟨_, _, .here, .link hd ho he hl hr⟩
    · have ha : (Path.segments target ++ front) ++ back = Path.segments target ++ rest := by
        rw [List.append_assoc, ht]
      have ⟨left, mid, hm, hr⟩ := hi ha
      exact ⟨left, mid, .link hd ho he (.inr rfl) hm, hr⟩
  case last hd ho he hl =>
    rcases List.append_eq_cons_iff.mp hs with ⟨rfl, rfl⟩ | ⟨front, rfl, ht⟩
    · exact ⟨0, _, .here, .last hd ho he hl⟩
    · exact absurd (List.append_eq_nil_iff.mp ht.symm).2 hb

theorem segmentComponent?_of_isOrdinary (h : IsOrdinary seg) : Path.segmentComponent? seg = some (.name seg) :=
  Path.segmentComponent?_eq_name h.1 h.2.1

theorem Reaches.exists_directory (h : Reaches top followLast links here segs names) (hs : segs ≠ [])
    (hn : segs.filterMap Path.segmentComponent? = []) :
    ∃ entries bars, top.at? names = some (.directory entries bars) := by
  induction h
  case here => exact absurd rfl hs
  case noise rest _ entries hd hno hr hi =>
    rw [List.filterMap_cons_none (Path.segmentComponent?_of_isNoise hno)] at hn
    by_cases he : rest = []
    case pos =>
      subst he
      cases hr
      obtain ⟨bars, hd, -⟩ := hd
      exact ⟨entries, bars, hd⟩
    case neg => exact hi he hn
  case up hr hi => cases hn
  case name hd ho he hk hr hi => simp [segmentComponent?_of_isOrdinary ho] at hn
  case link hd ho he hl hr hi => simp [segmentComponent?_of_isOrdinary ho] at hn
  case last hd ho he hl => simp [segmentComponent?_of_isOrdinary ho] at hn

theorem Reaches.eq_of_isNoise (h : Reaches top followLast links here [seg] names) (hn : Path.isNoise seg = true) :
    names = here := by
  cases h
  case noise hr      => cases hr; rfl
  case up            => exact absurd hn (by decide)
  case name ho _ _ _   => exact absurd hn (by simp [ho.1])
  case link ho _ _ _ _ => exact absurd hn (by simp [ho.1])
  case last ho _ _     => exact absurd hn (by simp [ho.1])

-- No link stands on the way along names, up to the last of them.
def Unlinked (top : Node) (here ns : List String) : Prop :=
  ∀ before, before <+: ns → before ≠ ns → ∀ target, top.at? (here ++ before) ≠ some (.link target)

theorem Unlinked.tail {ns : List String} (h : Unlinked top here (seg :: ns)) : Unlinked top (here ++ [seg]) ns := by
  intro before hp hne target
  have := h (seg :: before) ((List.prefix_cons_inj seg).mpr hp) (by simpa using hne) target
  simpa using this

theorem unlinked_of_isSome {ns : List String} (h : (top.at? (here ++ ns)).isSome) : Unlinked top here ns := by
  intro before ⟨rest, hr⟩ hne target hl
  cases rest
  case nil => exact hne (by simpa using hr)
  case cons => simp [← hr, ← List.append_assoc, Node.at?_append _ (here ++ before), hl, Node.at?] at h

theorem exists_cons_of_isOrdinary {ns : List String} (ho : IsOrdinary seg)
    (hs : (seg :: rest).filterMap Path.segmentComponent? = ns.map .name) :
    ∃ others, ns = seg :: others ∧ rest.filterMap Path.segmentComponent? = others.map .name := by
  rw [List.filterMap_cons_some (segmentComponent?_of_isOrdinary ho)] at hs
  have ⟨n, others, hns, hn, hr⟩ := List.map_eq_cons_iff.mp hs.symm
  cases hn
  exact ⟨others, hns, hr.symm⟩

-- Where no directory on the way is a link, names that lead to a file are those of its position.
theorem Reaches.eq_append {ns : List String} (h : Reaches top false links here segs names)
    (hs : segs.filterMap Path.segmentComponent? = ns.map .name) (hu : Unlinked top here ns)
    (hf : ∀ entries bars, top.at? names ≠ some (.directory entries bars)) : names = here ++ ns := by
  induction h generalizing ns
  case here =>
    cases List.map_eq_nil_iff.mp hs.symm
    exact (List.append_nil _).symm
  case noise hno _ hi =>
    rw [List.filterMap_cons_none (Path.segmentComponent?_of_isNoise hno)] at hs
    exact hi hs hu hf
  case up => cases ns <;> simp [Path.segmentComponent?, Path.isNoise] at hs
  case name ho _ _ _ hi =>
    obtain ⟨others, hns, ht⟩ := exists_cons_of_isOrdinary ho hs
    subst hns
    rw [hi ht hu.tail hf, List.append_assoc, List.singleton_append]
  case link seg target here rest _ _ hd ho he hm hr _ =>
    obtain ⟨others, hns, ht⟩ := exists_cons_of_isOrdinary ho hs
    subst hns
    by_cases hlast : others = []
    case pos =>
      -- Only slashes follow the link, so it leads to a directory.
      have hrest : rest ≠ [] := by simpa using hm
      obtain ⟨_, _, _, hr⟩ := hr.of_append hrest
      obtain ⟨entries, bars, hd⟩ := hr.exists_directory hrest (by rw [ht, hlast]; rfl)
      exact absurd hd (hf entries bars)
    case neg =>
      have hl : top.at? (here ++ [seg]) = some (.link target) := hd.at?_concat he
      exact absurd hl (hu [seg] (by simp) (by simpa using Ne.symm hlast) target)
  case last ho _ _ =>
    obtain ⟨others, hns, ht⟩ := exists_cons_of_isOrdinary ho hs
    cases List.map_eq_nil_iff.mp ht.symm
    rw [hns]

end DuplicateBlocks.Tree
