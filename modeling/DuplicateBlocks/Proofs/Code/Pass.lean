import DuplicateBlocks.Proofs.Code.Roster
import DuplicateBlocks.Proofs.Code.Token

namespace DuplicateBlocks.Code

variable {l : Limits} {ts : List Token} {t : Token} {p : Pass} {n : List Char}

theorem roster_concat (hn : t.name? = some n) (ha : l.admits n = true) :
    l.roster (ts ++ [t]) = (l.roster ts).enroll l.names n := by
  simp [Limits.roster, Roster.ofNames, hn, ha]

theorem roster_concat_of_forall (h : ∀ n, t.name? = some n → l.admits n = false) :
    l.roster (ts ++ [t]) = l.roster ts := by
  cases hn : t.name?
  case none   => simp [Limits.roster, hn]
  case some n => simp [Limits.roster, hn, h n hn]

theorem number?_roster_of_not_admits (ha : l.admits n = false) (ts : List Token) : (l.roster ts).number? n = none := by
  rw [Limits.roster, Roster.number?_ofNames, List.idxOf?_eq_none_iff]
  intro hn
  have hm := List.mem_eraseDups.mp (List.mem_of_mem_take hn)
  simp [(List.mem_filter.mp hm).right] at ha

theorem number?_roster_concat (hn : n ∈ ts.filterMap Token.name?) (t : Token) :
    (l.roster (ts ++ [t])).number? n = (l.roster ts).number? n := by
  by_cases h : ∃ m, t.name? = some m ∧ l.admits m = true
  case neg =>
    rw [roster_concat_of_forall fun m hm => Bool.eq_false_iff.mpr fun ha => h ⟨m, hm, ha⟩]
  case pos =>
    have ⟨m, hm, ha⟩ := h
    rw [roster_concat hm ha]
    by_cases he : n = m
    case neg => exact Roster.number?_enroll_of_ne he
    case pos =>
      have hf : m ∈ (ts.filterMap Token.name?).filter l.admits := List.mem_filter.mpr ⟨he ▸ hn, ha⟩
      exact congrArg (Roster.number? · n) (Roster.enroll_ofNames_of_mem hf)

theorem canonical_roster_concat {u : Token} (hu : u ∈ ts) (t : Token) :
    u.canonical (l.roster (ts ++ [t])) = u.canonical (l.roster ts) := by
  unfold Token.canonical
  cases hn : u.name?
  case none   => rfl
  case some n => simp only [Option.bind_some, number?_roster_concat (List.mem_filterMap.mpr ⟨u, hu, hn⟩)]

namespace Canonical

theorem ofTokens_concat (l : Limits) (ts : List Token) (t : Token) :
    ofTokens l (ts ++ [t]) =
      { text := (ofTokens l ts).text ++ t.canonical (l.roster (ts ++ [t]))
        untracked := (ofTokens l ts).untracked +
          t.name?.toList.countP fun n => l.admits n && !(l.roster (ts ++ [t])).knows n
        tooLong := (ofTokens l ts).tooLong + t.name?.toList.countP fun n => !l.admits n } := by
  have hn : (ts ++ [t]).filterMap Token.name? = ts.filterMap Token.name? ++ t.name?.toList := by
    cases ht : t.name? <;> simp [ht]
  have hk : ∀ n ∈ ts.filterMap Token.name?, (l.roster (ts ++ [t])).knows n = (l.roster ts).knows n := by
    intro n hn
    rw [Roster.knows, number?_roster_concat hn, Roster.knows]
  ext1
  case text =>
    simp only [ofTokens, List.flatMap_append, List.flatMap_singleton]
    congr 1
    exact List.flatMap_congr fun u hu => canonical_roster_concat hu t
  case untracked =>
    simp only [ofTokens, hn, List.countP_append]
    congr 1
    exact List.countP_congr fun n hn => by rw [hk n hn]
  case tooLong => simp only [ofTokens, hn, List.countP_append]

end Canonical

namespace Pass

-- The ways in which the word under way can end.
inductive Closes (l : Limits) (p : Pass) (w : List Char) : Pass → Prop
  | other     : isName w = false → Closes l p w p.keep
  | tooLong   : isName w = true → l.admits w = false → Closes l p w { p.keep with tooLong := p.tooLong + 1 }
  | tracked {k : Nat} : isName w = true → l.admits w = true → (p.roster.enroll l.names w).number? w = some k →
      Closes l p w ({ p with roster := p.roster.enroll l.names w }.replace k)
  | untracked : isName w = true → l.admits w = true → (p.roster.enroll l.names w).number? w = none →
      Closes l p w { p.keep with roster := p.roster.enroll l.names w, untracked := p.untracked + 1 }

theorem closes {w : List Char} (hw : p.word.reverse = w) : Closes l p w (p.close l) := by
  simp only [close, hw]
  cases hn : isName w
  case false => exact .other hn
  case true =>
    cases ha : l.admits w
    case false => exact .tooLong hn ha
    case true =>
      simp only [Bool.not_true, Bool.false_eq_true, if_false]
      split
      case h_1 hk => exact .tracked hn ha hk
      case h_2 hk => exact .untracked hn ha hk

theorem Closes.word {w : List Char} {q : Pass} (h : Closes l p w q) : q.word = [] := by
  cases h <;> rfl

theorem close_of_word_eq_nil (h : p.word = []) : p.close l = p := by
  obtain ⟨roster, written, pending, word, untracked, tooLong⟩ := p
  subst h
  rfl

def token (l : Limits) (p : Pass) : Token → Pass
  | .word w => close l { p with word := w.reverse }
  | .mark c => { p with pending := c :: p.pending }

-- A pass that has read the tokens `ts`.
structure After (l : Limits) (ts : List Token) (p : Pass) : Prop where
  roster : p.roster = l.roster ts
  word   : p.word = []
  result : p.result = .ofTokens l ts

namespace After

theorem mark (h : p.After l ts) (c : Char) : (p.token l (.mark c)).After l (ts ++ [.mark c]) where
  roster := h.roster.trans (roster_concat_of_forall (by simp [Token.name?])).symm
  word   := h.word
  result := by
    rw [Canonical.ofTokens_concat, ← h.result]
    simp [token, Pass.result, Token.canonical, Token.name?, Token.text]

theorem closes {w : List Char} {q : Pass} (h : p.After l ts) (hq : Closes l { p with word := w.reverse } w q) :
    q.After l (ts ++ [.word w]) := by
  have hr := h.roster
  refine ⟨?roster, hq.word, ?result⟩
  case roster =>
    cases hq
    case other hn        => exact hr.trans (roster_concat_of_forall (by simp [Token.name?, hn])).symm
    case tooLong hn ha   => exact hr.trans (roster_concat_of_forall (by simp [Token.name?, hn, ha])).symm
    case tracked hn ha _ =>
      rw [roster_concat (by simp [Token.name?, hn]) ha, ← hr, replace]
    case untracked hn ha _ =>
      rw [roster_concat (by simp [Token.name?, hn]) ha, ← hr]
  case result =>
    rw [Canonical.ofTokens_concat, ← h.result]
    cases hq
    case other hn =>
      simp [Pass.result, keep, Token.canonical, Token.name?, Token.text, hn]
    case tooLong hn ha =>
      have hk := number?_roster_of_not_admits ha (ts ++ [.word w])
      simp [Pass.result, keep, Token.canonical, Token.name?, Token.text, hn, ha, hk]
    case tracked hn ha hk =>
      rw [roster_concat (by simp [Token.name?, hn]) ha, ← hr]
      simp [Pass.result, replace, Token.canonical, Token.name?, Roster.knows, hn, ha, hk]
    case untracked hn ha hk =>
      rw [roster_concat (by simp [Token.name?, hn]) ha, ← hr]
      simp [Pass.result, keep, Token.canonical, Token.name?, Token.text, Roster.knows, hn, ha, hk]

theorem foldl_token (ts : List Token) : (ts.foldl (token l) {}).After l ts := by
  induction ts using List.reverseRecOn
  case nil => exact ⟨rfl, rfl, rfl⟩
  case append_singleton ts t hi =>
    rw [List.foldl_append]
    cases t
    case mark c => exact hi.mark c
    case word w => exact hi.closes (Pass.closes (List.reverse_reverse w))

end After

theorem foldl_token_word {cs : List Char} (hw : ∀ c ∈ p.word, isWordChar c = true) (hcs : EndsWord cs) :
    (Token.ofText (p.word.reverse ++ cs)).foldl (token l) { p with word := [] } =
      (Token.ofText cs).foldl (token l) (p.close l) := by
  by_cases hn : p.word = []
  case pos =>
    have hp : { p with word := [] } = p := by rw [← hn]
    rw [close_of_word_eq_nil hn, hp, hn]
    rfl
  case neg =>
    have hw' : IsWord p.word.reverse := ⟨by simpa using hn, by simpa using hw⟩
    rw [Token.ofText_word hw' hcs, List.foldl_cons, token, List.reverse_reverse]

-- Reading a text is reading its tokens, the first of which may be under way.
theorem close_foldl_read (hw : ∀ c ∈ p.word, isWordChar c = true) (cs : List Char) :
    (cs.foldl (read l) p).close l = (Token.ofText (p.word.reverse ++ cs)).foldl (token l) { p with word := [] } := by
  induction cs generalizing p
  case nil => exact (foldl_token_word hw .nil).symm
  case cons c cs hi =>
    cases hc : isWordChar c
    case true =>
      have hp := hi (p := { p with word := c :: p.word }) (List.forall_mem_cons.mpr ⟨hc, hw⟩)
      simpa [read, hc] using hp
    case false =>
      have hr : p.read l c = (p.close l).token l (.mark c) := by simp [read, hc, token]
      have hq : (p.read l c).word = [] := hr ▸ (closes (p := p) rfl).word
      have hp : { p.read l c with word := [] } = p.read l c := by rw [← hq]
      rw [foldl_token_word hw (.cons hc cs), Token.ofText_mark hc, List.foldl_cons, List.foldl_cons, hi (by simp [hq]),
        hp, hq, hr]
      rfl

end Pass

theorem canonicalize_eq_result (l : Limits) (cs : List Char) :
    canonicalize l cs = ((Token.ofText cs).foldl (Pass.token l) {}).result := by
  rw [canonicalize, Pass.close_foldl_read (by simp)]
  rfl

theorem canonicalize_eq (l : Limits) (cs : List Char) : canonicalize l cs = .ofTokens l (Token.ofText cs) := by
  rw [canonicalize_eq_result]
  exact (Pass.After.foldl_token _).result

end DuplicateBlocks.Code
