import DuplicateBlocks.Proofs.Bucket
import DuplicateBlocks.Proofs.Code.Normalization
import DuplicateBlocks.Proofs.Scan.Verdict

namespace DuplicateBlocks

namespace Text

variable {c : Char} {line text text' ending : List Char}

def lineEnds : List (List Char) :=
  [[newline], ['\r', newline]]

-- The second text is the first one with other line ends: any line feed may have got a carriage return in front of it,
-- and a last line that had no end may have got one.
inductive Reended : List Char → List Char → Prop
  | nil : Reended [] []
  | cons (c : Char) {text text' : List Char} : Reended text text' → Reended (c :: text) (c :: text')
  | returned {text text' : List Char} : Reended text text' → Reended (newline :: text) ('\r' :: newline :: text')
  | closed {c : Char} {ending : List Char} : c ≠ newline → ending ∈ lineEnds → Reended [c] (c :: ending)

def withReturns (text : List Char) : List Char :=
  text.flatMap fun c => if c == newline then ['\r', newline] else [c]

theorem withReturns_cons (hn : c ≠ newline) (text : List Char) : withReturns (c :: text) = c :: withReturns text := by
  simp [withReturns, hn]

theorem reended_withReturns (text : List Char) : Reended text (withReturns text) := by
  induction text
  case nil => exact .nil
  case cons c text hi =>
    by_cases hn : c = newline
    case pos => exact hn ▸ .returned hi
    case neg => rw [withReturns_cons hn]; exact .cons c hi

theorem reended_append (hn : text ≠ []) (hl : text.getLast? ≠ some newline) (he : ending ∈ lineEnds) :
    Reended text (text ++ ending) := by
  induction text
  case nil => exact absurd rfl hn
  case cons c text hi =>
    cases text
    case nil    => exact .closed (by simpa using hl) he
    case cons _ => exact .cons c (hi (by simp) (by simpa using hl))

theorem reended_withReturns_append (hn : text ≠ []) (hl : text.getLast? ≠ some newline) (he : ending ∈ lineEnds) :
    Reended text (withReturns text ++ ending) := by
  induction text
  case nil => exact absurd rfl hn
  case cons c text hi =>
    cases text
    case nil =>
      have hc : c ≠ newline := by simpa using hl
      rw [withReturns_cons hc]
      exact .closed hc he
    case cons d text =>
      have ht := hi (by simp) (by simpa using hl)
      by_cases hc : c = newline
      case pos => exact hc ▸ .returned ht
      case neg => rw [withReturns_cons hc]; exact .cons c ht

theorem sourceLines_append_newline (h : newline ∉ line) (text : List Char) :
    sourceLines (line ++ newline :: text) = dropReturn line :: sourceLines text := by
  have hn := pieces_ne_nil (· == newline) text
  have hl : pieces (· == newline) line = [line] := by
    simpa using pieces_append_of_not_sep (· == newline) (fun x hx he => h (eq_of_beq he ▸ hx)) []
  have hp : pieces (· == newline) (line ++ newline :: text) = line :: pieces (· == newline) text := by
    rw [pieces_append_cons_sep (· == newline) BEq.rfl, hl]
    rfl
  simp only [sourceLines, feedPieces, hp, List.getLast?_cons_of_ne_nil hn, List.dropLast_cons_of_ne_nil hn]
  split <;> rfl

theorem sourceLines_cons (hn : c ≠ newline) (hr : c ≠ '\r') (text : List Char) :
    sourceLines (c :: text) = (c :: (sourceLines text).headD []) :: (sourceLines text).tail := by
  have hs : ¬(c == newline) = true := by simpa using hn
  obtain ⟨p, ps, hp⟩ := List.exists_cons_of_ne_nil (pieces_ne_nil (· == newline) text)
  have hc : pieces (· == newline) (c :: text) = (c :: p) :: ps := by
    rw [pieces_cons_of_not_sep (· == newline) hs]
    simp [hp]
  have hd : dropReturn (c :: p) = c :: dropReturn p := Code.Renamed.dropReturn_cons (.inl hr)
  simp only [sourceLines, feedPieces, hc, hp]
  cases ps
  case nil =>
    cases p <;> simp [hd]
    rfl
  case cons q qs =>
    simp only [List.getLast?_cons_cons, List.dropLast_cons_cons]
    split <;> simp [hd]

theorem sourceLines_newline (text : List Char) : sourceLines (newline :: text) = [] :: sourceLines text :=
  sourceLines_append_newline List.not_mem_nil text

theorem sourceLines_return (text : List Char) : sourceLines ('\r' :: newline :: text) = [] :: sourceLines text := by
  have hn : newline ∉ ['\r'] := by decide
  exact sourceLines_append_newline hn text

theorem sourceLines_of_mem_lineEnds (h : ending ∈ lineEnds) : sourceLines ending = [[]] := by
  rcases List.mem_pair.mp h with h | h
  · exact h ▸ sourceLines_newline []
  · exact h ▸ sourceLines_return []

theorem Reended.sourceLines (h : Reended text text') (hr : '\r' ∉ text) :
    Text.sourceLines text' = Text.sourceLines text := by
  induction h
  case nil => rfl
  case cons c text text' _ hi =>
    have ⟨hc, ht⟩ := List.ne_and_not_mem_of_not_mem_cons hr
    by_cases hn : c = newline
    case pos => rw [hn, sourceLines_newline, sourceLines_newline, hi ht]
    case neg => rw [sourceLines_cons hn hc.symm, sourceLines_cons hn hc.symm, hi ht]
  case returned text text' _ hi =>
    rw [sourceLines_return, sourceLines_newline, hi (List.not_mem_of_not_mem_cons hr)]
  case closed c ending hn he =>
    have hc := List.ne_of_not_mem_cons hr
    rw [sourceLines_cons hn hc.symm, sourceLines_cons hn hc.symm, sourceLines_of_mem_lineEnds he]
    rfl

end Text

variable {s : Settings} {u u' : Source} {us us' : List Source}

structure Source.Reended (u u' : Source) : Prop where
  id   : u'.id = u.id
  text : Text.Reended u.text u'.text

-- Two sources that a scan cannot tell apart.
structure Source.SameLines (u u' : Source) : Prop where
  id    : u'.id = u.id
  lines : u'.lineArray = u.lineArray

theorem Source.Reended.sameLines (h : Reended u u') (hr : '\r' ∉ u.text) : SameLines u u' where
  id    := h.id
  lines := congrArg List.toArray (h.text.sourceLines hr)

theorem Source.forall₂_sameLines (h : List.Forall₂ Reended us us') (hr : ∀ u ∈ us, '\r' ∉ u.text) :
    List.Forall₂ SameLines us us' := by
  induction h
  case nil => exact .nil
  case cons h _ hi =>
    have ⟨hu, hus⟩ := List.forall_mem_cons.mp hr
    exact .cons (h.sameLines hu) (hi hus)

theorem Harvest.addSource_sameLines (h : Source.SameLines u u') (r : Harvest) : addSource s u' r = addSource s u r := by
  rw [addSource, addSource, h.id, h.lines]

theorem Harvest.addSources_sameLines (h : List.Forall₂ Source.SameLines us us') (r : Harvest) :
    addSources s us' r = addSources s us r := by
  induction h generalizing r
  case nil => rfl
  case cons h _ hi => simp only [addSources_cons, h.id, addSource_sameLines h, hi]

namespace Scan

theorem pooled_sameLines (s : Settings) (h : List.Forall₂ Source.SameLines us us') : pooled s us' = pooled s us := by
  have ho : Harvest.ofSources s us' = Harvest.ofSources s us := by
    rw [Harvest.ofSources, Harvest.ofSources, ← h.length_eq, Harvest.addSources_sameLines h]
  rw [pooled, pooled, ho]

theorem each_sameLines (s : Settings) (h : List.Forall₂ Source.SameLines us us') : each s us' = each s us := by
  induction h
  case nil => rfl
  case cons h _ hi => rw [each_cons, each_cons, pooled_sameLines s (.cons h .nil), hi]

-- Where no text holds a carriage return, line ends may be written otherwise without any effect on a scan.
theorem pooled_reended (s : Settings) (h : List.Forall₂ Source.Reended us us') (hr : ∀ u ∈ us, '\r' ∉ u.text) :
    pooled s us' = pooled s us ∧ each s us' = each s us := by
  have hl := Source.forall₂_sameLines h hr
  exact ⟨pooled_sameLines s hl, each_sameLines s hl⟩

-- The first text gets other line ends throughout, the second an end of its last line, the third both; the last one is
-- nothing but a line end.
def plain : List Source :=
  [repeated, lone, ⟨"c", repeated.text⟩, ⟨"d", [Text.newline]⟩]

def ended : List Source :=
  [⟨"a", Text.withReturns repeated.text⟩, ⟨"b", lone.text ++ ['\r', Text.newline]⟩,
    ⟨"c", Text.withReturns repeated.text ++ [Text.newline]⟩, ⟨"d", Text.withReturns [Text.newline]⟩]

theorem pooled_reended_plain :
    pooled { minLines := 1 } ended = pooled { minLines := 1 } plain ∧
      each { minLines := 1 } ended = each { minLines := 1 } plain ∧ (pooled { minLines := 1 } plain).groups ≠ [] := by
  have h : List.Forall₂ Source.Reended plain ended :=
    .cons ⟨rfl, Text.reended_withReturns _⟩ <|
    .cons ⟨rfl, Text.reended_append (by decide) (by decide) (by decide)⟩ <|
    .cons ⟨rfl, Text.reended_withReturns_append (by decide +kernel) (by decide +kernel) (by decide)⟩ <|
    .cons ⟨rfl, Text.reended_withReturns _⟩ .nil
  have hr : ∀ u ∈ plain, '\r' ∉ u.text := by decide +kernel
  have ⟨hp, he⟩ := pooled_reended { minLines := 1 } h hr
  refine ⟨hp, he, ?_⟩
  simp only [pooled, Bucket.ofBlocks_eq]
  decide +kernel

end Scan
end DuplicateBlocks
