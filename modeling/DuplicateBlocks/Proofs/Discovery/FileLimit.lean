import DuplicateBlocks.Proofs.Discovery.Accounts

namespace DuplicateBlocks.Discovery

namespace Walk

variable {w w' : Walk}

-- Two walks that look at the same paths, pass over the same directories and go by the same rules.
structure Agrees (w w' : Walk) : Prop where
  top                : w.top = w'.top
  pathOf             : w.pathOf = w'.pathOf
  level              : w.level = w'.level
  isIgnored          : w.isIgnored = w'.isIgnored
  ignoredDirectories : w.options.ignoredDirectories = w'.options.ignoredDirectories

namespace Agrees

theorem listed (h : Agrees w w') (names : List String) (items : List Item) :
    w.listed names items = w'.listed names items := by
  rw [Walk.listed, Walk.listed, h.top, h.pathOf]

mutual

theorem nodeItems (h : Agrees w w') (levels : List Level) (names : List String) (name : String) :
    (node : Tree.Node) → w.nodeItems levels names name node = w'.nodeItems levels names name node
  | .link _ => by rw [Walk.nodeItems, Walk.nodeItems]
  | .file _ _ => by rw [Walk.nodeItems, Walk.nodeItems, h.isIgnored]
  | .directory entries _ => by
    rw [Walk.nodeItems, Walk.nodeItems, h.isIgnored, h.level, h.ignoredDirectories, h.entriesItems _ _ entries,
      h.listed]

theorem entryItems (h : Agrees w w') (levels : List Level) (names : List String) :
    (entry : String × Tree.Node) → w.entryItems levels names entry = w'.entryItems levels names entry
  | (name, node) => by rw [Walk.entryItems, Walk.entryItems, h.nodeItems _ _ _ node]

theorem entriesItems (h : Agrees w w') (levels : List Level) (names : List String) :
    (entries : List (String × Tree.Node)) →
      w.entriesItems levels names entries = w'.entriesItems levels names entries
  | []            => by rw [Walk.entriesItems, Walk.entriesItems]
  | entry :: rest => by
    rw [Walk.entriesItems, Walk.entriesItems, h.entryItems _ _ entry, h.entriesItems _ _ rest]

end

theorem items (h : Agrees w w') (entries : List (String × Tree.Node)) : w.items entries = w'.items entries := by
  rw [Walk.items, Walk.items, h.level, h.entriesItems, h.listed]

end Agrees
end Walk

variable {top : Tree.Node} {here root : String} {o : Options} {l : Ledger} {e : Event} {es : List Event}
  {out : Outcome} {roots : List String} {found : List (String × Tree.Spot)} {n : Nat}

def Options.limited (o : Options) (maxFiles : Option Nat) : Options :=
  { o with maxFiles }

theorem rootEvents_limited (top : Tree.Node) (here : String) (o : Options) (m : Option Nat) (root : String)
    (label : Option String) (spot : Tree.Spot) :
    rootEvents top here (o.limited m) root label spot = rootEvents top here o root label spot := by
  have h : Walk.Agrees { top, here, root, options := o.limited m } { top, here, root, options := o } :=
    ⟨rfl, rfl, rfl, rfl, rfl⟩
  unfold rootEvents
  simp only [h.items]
  rfl

theorem allEvents_limited (top : Tree.Node) (here : String) (o : Options) (m : Option Nat)
    (found : List (String × Tree.Spot)) : allEvents top here (o.limited m) found = allEvents top here o found := by
  simp only [allEvents, rootEvents_limited]

theorem scanned_enter (l : Ledger) (out : Outcome) :
    (l.enter out).scanned = l.scanned + .ofNat out.read?.toList.length := by
  rw [← amount_scanned]
  exact counter_enter l out .scanned

theorem read?_of_isFull (hf : l.isFull o = true) (h : l.outcome? o e = some out) : out.read? = none := by
  cases out
  case returned => cases hf.symm.trans (of_outcome?_eq_returned h).2.1
  all_goals rfl

theorem reads_of_isFull (hf : l.isFull o = true) (es : List Event) : reads (trace o l es) = [] := by
  induction es generalizing l
  case nil => rfl
  case cons e es hi =>
    rw [trace]
    cases h : l.outcome? o e
    case none     => rfl
    case some out =>
      have hr := read?_of_isFull hf h
      have hs : (l.enter out).scanned = l.scanned := by
        rw [scanned_enter, hr]
        exact Tally.add_zero _
      have hn : (l.enter out).isFull o = true := by rwa [Ledger.isFull, hs]
      rw [reads_cons, hr, hi hn]
      rfl

theorem outcome?_of_not_isFull (hf : l.isFull (o.limited (some n)) = false) (e : Event) :
    l.outcome? (o.limited (some n)) e = l.outcome? (o.limited none) e := by
  have hn : l.isFull (o.limited none) = false := rfl
  cases e
  case fault   => rfl
  case outside => rfl
  case file path id label found =>
    simp only [Ledger.outcome?, Ledger.judge, Ledger.judgeBy, hf, hn]
    rfl

-- The limit is a 64-bit word here, so the counter meets it before it stops.
theorem reads_limited (hn : n ≤ Tally.cap) (l : Ledger) (es : List Event) :
    reads (trace (o.limited (some n)) l es) =
      (reads (trace (o.limited none) l es)).take (n - l.scanned.toNat) := by
  induction es generalizing l
  case nil => simp [trace, reads]
  case cons e es hi =>
    cases hf : l.isFull (o.limited (some n))
    case true =>
      have hle : n ≤ l.scanned.toNat := by simpa [Ledger.isFull, Options.limited] using hf
      rw [reads_of_isFull hf, Nat.sub_eq_zero_of_le hle, List.take_zero]
    case false =>
      have hlt : l.scanned.toNat < n := by simpa [Ledger.isFull, Options.limited] using hf
      rw [trace, trace, outcome?_of_not_isFull hf]
      cases l.outcome? (o.limited none) e
      case none     => simp [reads]
      case some out =>
        have hle : out.read?.toList.length ≤ 1 := by cases out.read? <;> simp
        have hs : (l.enter out).scanned.toNat = l.scanned.toNat + out.read?.toList.length := by
          rw [scanned_enter, Tally.toNat_add, Tally.toNat_ofNat]
          omega
        have ht : out.read?.toList.take (n - l.scanned.toNat) = out.read?.toList :=
          List.take_of_length_le (by omega)
        simp only [reads_cons, hi, hs]
        rw [List.take_append, ht, Nat.sub_sub]

theorem files_limited (hn : n ≤ Tally.cap) (es : List Event) :
    (Haul.ofEvents (o.limited (some n)) {} es).files = (Haul.ofEvents (o.limited none) {} es).files.take n := by
  rw [files_ofEvents, files_ofEvents, reads_limited hn, List.map_take]
  rfl

-- A search that is not begun would have returned nothing.
theorem exists_search_files (here : String) (o : Options) (hl : Leads top roots found) :
    ∃ haul, search top here o roots = .ok haul ∧
      haul.files = (Haul.ofEvents o {} (allEvents top here o found)).files := by
  refine ⟨_, search_eq_ok here o hl, ?_⟩
  split <;> try split
  case isTrue hn =>
    rw [List.isEmpty_iff.mp hn]
    rfl
  case isFalse.isTrue hz =>
    have hf : Ledger.isFull {} o = true := by simp [Ledger.isFull, eq_of_beq hz]
    rw [files_ofEvents, reads_of_isFull hf, List.map_nil]
  case isFalse.isFalse => rfl

-- With a limit on the number of files, a search returns as many as it may, and they are the first ones of those that
-- it returns without the limit, whichever roots they lie under.
theorem files_search_eq_take (top : Tree.Node) (here : String) (o : Options) (hn : n ≤ Tally.cap) :
    (∀ roots : List String, (∀ root ∈ roots, (findRoot top root).isOk) → ∃ cut all,
      search top here { o with maxFiles := some n } roots = .ok cut ∧
      search top here { o with maxFiles := none } roots = .ok all ∧ cut.files = all.files.take n) ∧
    ∀ (t : Toolbox) (root : String) (paths : List String), t.stagedPaths root = .ok paths → ∃ cut all,
      searchStaged top t { o with maxFiles := some n } root = .ok cut ∧
      searchStaged top t { o with maxFiles := none } root = .ok all ∧ cut.files = all.files.take n := by
  constructor
  case left =>
    intro roots hr
    have ⟨found, hl⟩ := exists_leads hr
    have ⟨cut, hc, hcf⟩ := exists_search_files here (o.limited (some n)) hl
    have ⟨all, ha, haf⟩ := exists_search_files here (o.limited none) hl
    refine ⟨cut, all, hc, ha, ?_⟩
    rw [hcf, haf, allEvents_limited, allEvents_limited, files_limited hn]
  case right =>
    intro t root paths hp
    exact ⟨_, _, searchStaged_eq_ok top _ hp, searchStaged_eq_ok top _ hp, files_limited hn _⟩

-- Of two files, under two roots or staged, one is returned.
theorem files_search_forked :
    (∃ cut all, search forked "/" { unruled with maxFiles := some 1 } ["/a/src", "/b/src"] = .ok cut ∧
      search forked "/" { unruled with maxFiles := none } ["/a/src", "/b/src"] = .ok all ∧
      all.files = [⟨"src/x.ts", []⟩, ⟨"src/x.ts", []⟩] ∧ cut.files = all.files.take 1) ∧
    ∃ cut all,
      searchStaged forked (listing ["a/src/x.ts", "b/src/x.ts"]) { unruled with maxFiles := some 1 } "/" = .ok cut ∧
      searchStaged forked (listing ["a/src/x.ts", "b/src/x.ts"]) { unruled with maxFiles := none } "/" = .ok all ∧
      all.files = [⟨"a/src/x.ts", []⟩, ⟨"b/src/x.ts", []⟩] ∧ cut.files = all.files.take 1 := by
  have hp : (listing ["a/src/x.ts", "b/src/x.ts"]).stagedPaths "/" = .ok ["a/src/x.ts", "b/src/x.ts"] := rfl
  have ⟨hroots, hstaged⟩ := files_search_eq_take forked "/" unruled (n := 1) (by decide)
  constructor
  case left =>
    have ⟨cut, all, hc, ha, ht⟩ := hroots _ leads_forked.isOk
    refine ⟨cut, all, hc, ha, ?_, ht⟩
    cases ha.symm.trans (search_eq_ok "/" _ leads_forked)
    decide +kernel
  case right =>
    have ⟨cut, all, hc, ha, ht⟩ := hstaged _ _ _ hp
    refine ⟨cut, all, hc, ha, ?_, ht⟩
    cases ha.symm.trans (searchStaged_eq_ok forked _ hp)
    decide +kernel

end DuplicateBlocks.Discovery
