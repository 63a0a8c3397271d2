import DuplicateBlocks.Text.Line

namespace DuplicateBlocks.Code

open Text

def opensComment : Char × Char → Bool
  | ('/', '/') | ('/', '*') => true
  | _ => false

def commentStart? (line : List Char) : Option Nat :=
  (line.zip line.tail).findIdx? opensComment

def beforeComment (line : List Char) : List Char :=
  match commentStart? line with
  | some i => line.take i
  | none => line

def codeWords (line : List Char) : List (List Char) :=
  words (beforeComment line)

-- The code words of each line that has any.
def codeLines (text : List Char) : List (List (List Char)) :=
  ((lines text).map codeWords).filter (!·.isEmpty)

def joinWords (ws : List (List Char)) : List Char :=
  List.intercalate [' '] ws

structure Stripping where
  -- What is written, the latest character first.
  written : List Char := []
  -- No word of the line at hand is written yet.
  first : Bool := true

namespace Stripping

-- Writes a word behind the word before it, on a new line if it is the first of its own.
def addWord (s : Stripping) (w : List Char) : Stripping :=
  let gap := if !s.first then [' '] else if !s.written.isEmpty then [newline] else []
  { written := w.reverse ++ (gap ++ s.written), first := false }

def addLine (s : Stripping) (line : List Char) : Stripping :=
  (codeWords line).foldl addWord { s with first := true }

end Stripping

-- A text without comments, blank lines and superfluous blanks.
def strip (text : List Char) : List Char :=
  ((lines text).foldl Stripping.addLine {}).written.reverse

theorem beforeComment_prefix (line : List Char) : beforeComment line <+: line := by
  unfold beforeComment
  split
  · exact List.take_prefix _ _
  · exact List.prefix_rfl

namespace Stripping

theorem written_foldl_addWord (s : Stripping) (hs : s.first = false) (ws : List (List Char)) :
    (ws.foldl addWord s).written.reverse = s.written.reverse ++ ws.flatMap (' ' :: ·) := by
  induction ws generalizing s with
  | nil => simp
  | cons w ws ih =>
    rw [List.foldl_cons, ih (s.addWord w) rfl]
    simp [addWord, hs]

theorem written_addLine_nil (s : Stripping) {line : List Char} (h : codeWords line = []) :
    (s.addLine line).written = s.written := by
  simp [addLine, h]

-- The first code words of a text stand at its start, all others on a new line.
theorem written_addLine (s : Stripping) {line : List Char} (h : codeWords line ≠ []) :
    (s.addLine line).written.reverse =
      s.written.reverse ++ ((if s.written.isEmpty then [] else [newline]) ++ joinWords (codeWords line)) := by
  obtain ⟨w, ws, hw⟩ := List.exists_cons_of_ne_nil h
  rw [addLine, hw, List.foldl_cons, written_foldl_addWord _ rfl, joinWords, intercalate_cons]
  cases s.written <;> simp [addWord]

theorem written_addLine_ne_nil (s : Stripping) {line : List Char} (h : codeWords line ≠ []) :
    (s.addLine line).written ≠ [] := by
  obtain ⟨w, ws, hw⟩ := List.exists_cons_of_ne_nil h
  have hn : w ≠ [] := ne_nil_of_mem_words (hw ▸ List.mem_cons_self : w ∈ codeWords line)
  rw [ne_eq, ← List.reverse_eq_nil_iff, written_addLine s h, hw, joinWords, intercalate_cons]
  simp [hn]

theorem written_foldl_addLine (s : Stripping) (hs : s.written ≠ []) (ls : List (List Char)) :
    (ls.foldl addLine s).written.reverse =
      s.written.reverse ++ (((ls.map codeWords).filter (!·.isEmpty)).map joinWords).flatMap (newline :: ·) := by
  induction ls generalizing s with
  | nil => simp
  | cons line ls ih =>
    by_cases h : codeWords line = []
    · have hl := written_addLine_nil s h
      rw [List.foldl_cons, ih _ (hl ▸ hs), hl]
      simp [h]
    · rw [List.foldl_cons, ih _ (written_addLine_ne_nil s h), written_addLine s h]
      simp [h, hs]

end Stripping

theorem strip_eq (text : List Char) : strip text = unlines ((codeLines text).map joinWords) := by
  unfold strip codeLines
  induction lines text with
  | nil => rfl
  | cons line ls ih =>
    by_cases h : codeWords line = []
    · -- Nothing is written yet, so the text is as if it began with the next line.
      have hl : ls.foldl Stripping.addLine (Stripping.addLine {} line) = ls.foldl Stripping.addLine {} := by
        simp [Stripping.addLine, h]
      simpa [hl, h] using ih
    · rw [List.foldl_cons, Stripping.written_foldl_addLine _ (Stripping.written_addLine_ne_nil {} h),
        Stripping.written_addLine {} h]
      simp [h, unlines, intercalate_cons]

end DuplicateBlocks.Code
