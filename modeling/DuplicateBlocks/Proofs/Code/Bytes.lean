import DuplicateBlocks.Code.Bytes
import DuplicateBlocks.Proofs.Code.Layout
import DuplicateBlocks.Proofs.Slice

namespace DuplicateBlocks.Code.Bytes

open Text Utf8

variable {c : Char} {cs front w : List Char} {xs ys zs : List UInt8} {b : UInt8} {i : Nat} {l : Limits}

-- A class of bytes and a class of ASCII characters that agree on ASCII agree on all bytes of all characters.
theorem class_of_mem {p : UInt8 → Bool} {q : Char → Bool} (h : ∀ n < 128, p (.ofNat n) = q (.ofNat n))
    (hp : ∀ n < 256, 128 ≤ n → p (.ofNat n) = false) (hq : ∀ c, q c = true → c.toNat < 128)
    (hb : b ∈ String.utf8EncodeChar c) : p b = q c := by
  by_cases hc : c.toNat < 128
  case pos =>
    rw [utf8EncodeChar_of_le (Nat.le_of_lt_succ hc), List.mem_singleton] at hb
    rw [hb, h c.toNat hc, Char.ofNat_toNat]
  case neg =>
    have hl := le_of_mem_utf8EncodeChar (Nat.not_le.mp (mt Nat.lt_succ_of_le hc)) b hb
    have hpb := hp b.toNat b.toNat_lt hl
    rw [UInt8.ofNat_toNat] at hpb
    rw [hpb, Bool.eq_false_iff.mpr (mt (hq c) hc)]

theorem toNat_lt_of_isWordChar {c : Char} (h : isWordChar c = true) : c.toNat < 128 :=
  Nat.lt_of_le_of_lt (Renamed.toNat_of_isWordChar h).right (by decide)

theorem continuesName_of_mem (hb : b ∈ String.utf8EncodeChar c) : continuesName b = isWordChar c :=
  class_of_mem (by decide +kernel) (by decide +kernel) (fun _ => toNat_lt_of_isWordChar) hb

theorem isDigit_of_mem (hb : b ∈ String.utf8EncodeChar c) : isDigit b = c.isDigit := by
  refine class_of_mem (by decide +kernel) (by decide +kernel) (fun c hc => toNat_lt_of_isWordChar ?_) hb
  simp [isWordChar, Char.isAlphanum, hc]

theorem startsName_of_mem (hb : b ∈ String.utf8EncodeChar c) : startsName b = (isWordChar c && !c.isDigit) :=
  class_of_mem (q := fun c => isWordChar c && !c.isDigit) (by decide +kernel) (by decide +kernel)
    (fun _ hc => toNat_lt_of_isWordChar (Bool.and_eq_true_iff.mp hc).left) hb

theorem beq_slash_of_mem (hb : b ∈ String.utf8EncodeChar c) : (b == '/'.toUInt8) = (c == '/') :=
  class_of_mem (p := (· == '/'.toUInt8)) (q := (· == '/')) (by decide +kernel) (by decide +kernel) (by simp) hb

theorem beq_star_of_mem (hb : b ∈ String.utf8EncodeChar c) : (b == '*'.toUInt8) = (c == '*') :=
  class_of_mem (p := (· == '*'.toUInt8)) (q := (· == '*')) (by decide +kernel) (by decide +kernel) (by simp) hb

theorem continuesName_of_isWord (hw : IsWord w) : ∀ b ∈ encode w, continuesName b = true := by
  intro b hb
  have ⟨c, hc, hb⟩ := List.mem_flatMap.mp hb
  rw [continuesName_of_mem hb, hw.all c hc]

theorem continuesName_of_endsWord (hcs : EndsWord cs) : ∀ b ∈ (encode cs).head?, continuesName b = false := by
  cases cs
  case nil => simp [encode_nil]
  case cons c cs =>
    have ⟨b, bs, hc, _⟩ := exists_utf8EncodeChar c
    have hb : b ∈ String.utf8EncodeChar c := hc ▸ List.mem_cons_self
    simp [encode_cons, hc, continuesName_of_mem hb, hcs c rfl]

theorem length_encode_of_isWord (hw : IsWord w) : (encode w).length = w.length := by
  have hl : ∀ c ∈ w, (String.utf8EncodeChar c).length = 1 := by
    intro c hc
    rw [utf8EncodeChar_of_le (Nat.le_of_lt_succ (toNat_lt_of_isWordChar (hw.all c hc))), List.length_singleton]
  rw [encode, List.length_flatMap, List.map_congr_left hl]
  simp

-- A loop over positions that does nothing at some bytes goes on behind them.
theorem skip {α : Type} {f : Nat → α} {p : UInt8 → Bool} {text : List UInt8}
    (hf : ∀ xs b zs, text = xs ++ b :: zs → p b = true → f xs.length = f (xs.length + 1))
    (xs : List UInt8) (ht : text = xs ++ ys ++ zs) (hy : ∀ b ∈ ys, p b = true) :
    f xs.length = f (xs ++ ys).length := by
  induction ys generalizing xs
  case nil => rw [List.append_nil]
  case cons y ys hi =>
    have ⟨hy, hys⟩ := List.forall_mem_cons.mp hy
    have hn := hi (xs ++ [y]) (by simpa using ht) hys
    rw [List.append_assoc, List.singleton_append, List.length_append, List.length_singleton] at hn
    rw [hf xs y (ys ++ zs) (by simpa using ht) hy, hn]

theorem skipChar {α : Type} {f : Nat → α} {p : UInt8 → Bool} (front cs : List Char)
    (hc : ∀ b ∈ String.utf8EncodeChar c, p b = true)
    (hf : ∀ xs b zs, encode (front ++ c :: cs) = xs ++ b :: zs → p b = true → f xs.length = f (xs.length + 1)) :
    f (encode front).length = f (encode (front ++ [c])).length := by
  have he : encode (front ++ c :: cs) = encode front ++ encode [c] ++ encode cs := by
    simp [encode_append, encode_cons, encode_nil]
  have hy : ∀ b ∈ encode [c], p b = true := by simpa [encode_cons, encode_nil] using hc
  rw [encode_append]
  exact skip hf _ he hy

theorem commentStart?_of_le {line : List UInt8} (h : line.length ≤ i + 1) : commentStart? line i = none := by
  rw [commentStart?, dif_neg (Nat.not_lt.mpr h)]

theorem commentStart?_append (xs zs : List UInt8) (a b : UInt8) :
    commentStart? (xs ++ a :: b :: zs) xs.length =
      if a == '/'.toUInt8 && (b == '/'.toUInt8 || b == '*'.toUInt8) then some xs.length
      else commentStart? (xs ++ a :: b :: zs) (xs.length + 1) := by
  have hl : xs.length + 1 < (xs ++ a :: b :: zs).length := by simp
  rw [commentStart?, dif_pos hl]
  simp

theorem commentStart?_of_ne (hb : (b == '/'.toUInt8) = false) :
    commentStart? (xs ++ b :: zs) xs.length = commentStart? (xs ++ b :: zs) (xs.length + 1) := by
  cases zs
  case nil  => rw [commentStart?_of_le (by simp), commentStart?_of_le (by simp)]
  case cons =>
    rw [commentStart?_append, hb]
    rfl

theorem opensComment_slash (d : Char) : opensComment ('/', d) = (d == '/' || d == '*') := by
  rw [Bool.eq_iff_iff, opensComment_iff]
  simp

theorem commentStart?_encode_cons (front : List Char) (c : Char) (cs : List Char) :
    commentStart? (encode (front ++ c :: cs)) (encode front).length =
      if Renamed.opens (c :: cs) then some (encode front).length
      else commentStart? (encode (front ++ c :: cs)) (encode (front ++ [c])).length := by
  by_cases hc : c = '/'
  case pos =>
    subst hc
    have hs : encode ['/'] = ['/'.toUInt8] := rfl
    rw [encode_append, encode_append, List.length_append, hs, Renamed.opens_cons]
    cases cs
    case nil       => rw [hs, commentStart?_of_le (by simp), commentStart?_of_le (by simp)]; rfl
    case cons d cs =>
      have ⟨b, bs, hd, _⟩ := exists_utf8EncodeChar d
      have hb : b ∈ String.utf8EncodeChar d := hd ▸ List.mem_cons_self
      have he : encode ('/' :: d :: cs) = '/'.toUInt8 :: b :: (bs ++ encode cs) := by
        rw [encode_cons, encode_cons, hd]
        rfl
      rw [he, commentStart?_append, beq_slash_of_mem hb, beq_star_of_mem hb]
      simp [opensComment_slash]
  case neg =>
    have ho : ¬Renamed.opens (c :: cs) = true := by
      rw [Renamed.opens_cons, Option.any_eq_true]
      exact fun ⟨d, _, hd⟩ => hc (opensComment_iff.mp hd).left
    have hb : ∀ b ∈ String.utf8EncodeChar c, (!b == '/'.toUInt8) = true := fun b hb => by
      simp [beq_slash_of_mem hb, hc]
    rw [if_neg ho]
    exact skipChar front cs hb fun xs b zs ht hb => ht ▸ commentStart?_of_ne (by simpa using hb)

theorem commentStart?_encode (front cs : List Char) :
    commentStart? (encode (front ++ cs)) (encode front).length =
      (Code.commentStart? cs).map fun n => (encode (front ++ cs.take n)).length := by
  induction cs generalizing front
  case nil =>
    rw [commentStart?_of_le (by simp)]
    rfl
  case cons c cs hi =>
    have hn := hi (front ++ [c])
    rw [List.append_assoc, List.singleton_append] at hn
    rw [commentStart?_encode_cons, Renamed.commentStart?_cons, hn]
    cases Renamed.opens (c :: cs)
    case true  => simp
    case false => simp [Function.comp_def]

theorem beforeComment?_encode (line : List Char) :
    beforeComment? (encode line) = some (encode (beforeComment line)) := by
  have hs := commentStart?_encode [] line
  rw [List.nil_append] at hs
  rw [encode_nil, List.length_nil] at hs
  rw [beforeComment?, hs, beforeComment]
  cases hn : Code.commentStart? line
  case none   => rfl
  case some n =>
    have hp := slice?_encode [] (line.take n) (line.drop n)
    simpa [encode_nil] using hp

theorem addLine?_eq (s : Stripping) (line : List Char) : addLine? s line = some (s.addLine line) := by
  simp [addLine?, beforeComment?_encode, decode?_encode, Stripping.addLine, codeWords]

theorem strip?_eq (text : List Char) : strip? text = some (encode (strip text)) := by
  have hl : ∀ s, (lines text).foldlM addLine? s = some ((lines text).foldl Stripping.addLine s) := by
    induction lines text
    case nil => simp
    case cons line ls hi => simp [addLine?_eq, hi]
  simp [strip?, hl, strip]

theorem wordEnd_append (xs : List UInt8) (hy : ∀ b ∈ ys, continuesName b = true)
    (hz : ∀ b ∈ zs.head?, continuesName b = false) :
    wordEnd (xs ++ ys ++ zs) xs.length = (xs ++ ys).length := by
  have hf : ∀ us b vs, xs ++ ys ++ zs = us ++ b :: vs → continuesName b = true →
      wordEnd (xs ++ ys ++ zs) us.length = wordEnd (xs ++ ys ++ zs) (us.length + 1) := by
    intro us b vs ht hb
    rw [ht, wordEnd, dif_pos (by simp)]
    simp [hb]
  rw [skip hf _ rfl hy, wordEnd]
  cases zs
  case nil       => simp
  case cons z zs => simp [hz z rfl]

theorem wordEnd_encode (front : List Char) (hw : IsWord w) (hcs : EndsWord cs) :
    wordEnd (encode (front ++ w ++ cs)) ((encode front).length + 1) = (encode (front ++ w)).length := by
  rcases hb : encode w with _ | ⟨b, bs⟩
  case nil => exact absurd (encode_injective (hb.trans encode_nil.symm)) hw.ne_nil
  case cons =>
    have hbs : ∀ d ∈ bs, continuesName d = true := fun d hd =>
      continuesName_of_isWord hw d (hb ▸ List.mem_cons_of_mem b hd)
    have he := wordEnd_append (encode front ++ [b]) hbs (continuesName_of_endsWord hcs)
    rw [encode_append, encode_append, hb]
    simpa using he

variable {c : Copy} {m : Std.HashMap (List UInt8) Nat} {r : Roster} {p : Pass} {n read : List Char} {room k : Nat}

theorem copy?_of_le {text : List UInt8} (h : text.length ≤ i) : copy? l text i c = some c := by
  rw [copy?, dif_neg (Nat.not_lt.mpr h)]

theorem copy?_append (xs zs : List UInt8) (b : UInt8) :
    copy? l (xs ++ b :: zs) xs.length c =
      if isDigit b then copy? l (xs ++ b :: zs) (wordEnd (xs ++ b :: zs) (xs.length + 1)) c
      else if startsName b then
        (c.addWord? l (xs ++ b :: zs) xs.length (wordEnd (xs ++ b :: zs) (xs.length + 1))).bind fun c =>
          copy? l (xs ++ b :: zs) (wordEnd (xs ++ b :: zs) (xs.length + 1)) c
      else copy? l (xs ++ b :: zs) (xs.length + 1) c := by
  rw [copy?, dif_pos (by simp)]
  simp

theorem copy?_mark {d : Char} (hd : isWordChar d = false) :
    copy? l (encode (front ++ d :: cs)) (encode front).length c =
      copy? l (encode (front ++ d :: cs)) (encode (front ++ [d])).length c := by
  have hb : ∀ b ∈ String.utf8EncodeChar d, (!continuesName b) = true := fun b hb => by
    simp [continuesName_of_mem hb, hd]
  refine skipChar (f := fun i => copy? l (encode (front ++ d :: cs)) i c) front cs hb fun xs b zs ht hb => ?_
  have ⟨hb, hs⟩ : isDigit b = false ∧ startsName b = false := by
    simp_all [continuesName, startsName]
  simp only [ht, copy?_append, hb, hs, Bool.false_eq_true, if_false]

theorem copy?_word {d : Char} (hw : IsWord (d :: w)) (hcs : EndsWord cs) :
    copy? l (encode (front ++ d :: w ++ cs)) (encode front).length c =
      if d.isDigit then copy? l (encode (front ++ d :: w ++ cs)) (encode (front ++ d :: w)).length c
      else
        (c.addWord? l (encode (front ++ d :: w ++ cs)) (encode front).length (encode (front ++ d :: w)).length).bind
          (copy? l (encode (front ++ d :: w ++ cs)) (encode (front ++ d :: w)).length) := by
  have ⟨b, bs, hd, _⟩ := exists_utf8EncodeChar d
  have hb : b ∈ String.utf8EncodeChar d := hd ▸ List.mem_cons_self
  have he : encode (front ++ d :: w ++ cs) = encode front ++ b :: (bs ++ encode w ++ encode cs) := by
    simp [encode_append, encode_cons, hd]
  have hs := wordEnd_encode front hw hcs
  have hc := copy?_append (l := l) (c := c) (encode front) (bs ++ encode w ++ encode cs) b
  rw [← he, hs, isDigit_of_mem hb, startsName_of_mem hb, hw.all d List.mem_cons_self] at hc
  rw [hc]
  cases d.isDigit <;> rfl

theorem isReserved_encode (w : List Char) : isReserved (encode w) = reserved.contains w := by
  rw [Bool.eq_iff_iff]
  simp [isReserved, encode_injective.eq_iff]

-- The numbers of names by their bytes, and by their characters.
structure Numbers (m : Std.HashMap (List UInt8) Nat) (r : Roster) : Prop where
  number : ∀ n, m[encode n]? = r.number? n
  size   : m.size = r.numbers.size

namespace Numbers

theorem contains (h : Numbers m r) (n : List Char) : m.contains (encode n) = r.knows n := by
  rw [Std.HashMap.contains_eq_isSome_getElem?, h.number, Roster.knows]

theorem insert (h : Numbers m r) (hn : r.knows n = false) :
    Numbers (m.insert (encode n) m.size) { numbers := r.numbers.insert (String.ofList n) r.numbers.size } := by
  constructor
  case number =>
    intro k
    have he : (encode n == encode k) = (String.ofList n == String.ofList k) := by
      rw [Bool.eq_iff_iff, beq_iff_eq, beq_iff_eq, encode_injective.eq_iff, String.ofList_inj]
    have hk := h.number k
    rw [Roster.number?] at hk ⊢
    rw [Std.HashMap.getElem?_insert, Std.HashMap.getElem?_insert, he, hk, h.size]
  case size =>
    have hm : encode n ∉ m := by
      rw [← Std.HashMap.contains_iff_mem, h.contains, hn]
      simp
    have hr : String.ofList n ∉ r.numbers := by
      rw [← Std.HashMap.isSome_getElem?_iff_mem]
      exact Bool.eq_false_iff.mp hn
    rw [Std.HashMap.size_insert, Std.HashMap.size_insert, if_neg hm, if_neg hr, h.size]

theorem enroll (h : Numbers m r) (hk : (r.enroll room n).number? n = some k) :
    (!m.contains (encode n) && room ≤ m.size) = false ∧
      Numbers (if m.contains (encode n) then m else m.insert (encode n) m.size) (r.enroll room n) := by
  rw [h.contains]
  unfold Roster.enroll at hk ⊢
  cases hn : r.knows n
  case true => simpa [hn] using h
  case false =>
    have hr : r.number? n = none := by simpa [Roster.knows] using hn
    by_cases hl : room ≤ r.numbers.size
    case pos => simp [hn, hl, hr] at hk
    case neg => simpa [hn, hl, h.size] using h.size ▸ h.insert hn

theorem enroll_of_eq_none (h : Numbers m r) (hk : (r.enroll room n).number? n = none) :
    (!m.contains (encode n) && room ≤ m.size) = true ∧ r.enroll room n = r := by
  rw [h.contains, h.size]
  unfold Roster.enroll at hk ⊢
  cases hn : r.knows n
  case true => simp_all [Roster.knows]
  case false =>
    by_cases hl : room ≤ r.numbers.size
    case pos => simp [hl]
    case neg => simp [hn, hl, Roster.number?] at hk

end Numbers

-- A copy stands where a pass stands that has read the same part of the text.
structure Follows (c : Copy) (read : List Char) (p : Pass) : Prop where
  numbers   : Numbers c.numbers p.roster
  written   : c.written = encode p.written.reverse
  copied    : ∃ done, read = done ++ p.pending.reverse ∧ c.copied = (encode done).length
  untracked : c.untracked = p.untracked
  tooLong   : c.tooLong = p.tooLong

namespace Follows

theorem nil : Follows {} [] {} where
  numbers   := ⟨by simp [Roster.number?], by simp⟩
  written   := rfl
  copied    := ⟨[], rfl, rfl⟩
  untracked := rfl
  tooLong   := rfl

theorem keep (h : Follows c read p) (w : List Char) :
    Follows c (read ++ w) { p with pending := w.reverse ++ p.pending } where
  numbers   := h.numbers
  written   := h.written
  copied    :=
    have ⟨done, hr, hc⟩ := h.copied
    ⟨done, by simp [hr], hc⟩
  untracked := h.untracked
  tooLong   := h.tooLong

theorem literal {d : Char} (h : Follows c read p) (hd : d.isDigit = true) :
    Follows c (read ++ d :: w) (p.token l (.word (d :: w))) := by
  have hn : isName (d :: w) = false := by simp [isName, hd]
  have ht : p.token l (.word (d :: w)) = Pass.keep { p with word := (d :: w).reverse } := by
    simp [Pass.token, Pass.close, hn]
  exact ht ▸ { h.keep (d :: w) with }

theorem addWord? {d : Char} (h : Follows c read p) (hd : d.isDigit = false) (hw : IsWord (d :: w)) (cs : List Char) :
    ∃ e, c.addWord? l (encode (read ++ d :: w ++ cs)) (encode read).length (encode (read ++ d :: w)).length = some e ∧
      Follows e (read ++ d :: w) (p.token l (.word (d :: w))) := by
  have hs := slice?_encode read (d :: w) cs
  have hr : isReserved (encode (d :: w)) = !isName (d :: w) := by simp [isName, hd, isReserved_encode]
  have hl : l.nameLength < (encode (d :: w)).length ↔ l.admits (d :: w) = false := by
    rw [length_encode_of_isWord hw, Limits.admits, decide_eq_false_iff_not, Nat.not_le]
  have hk := h.keep (d :: w)
  have hq := Pass.closes (l := l) (p := { p with word := (d :: w).reverse }) (List.reverse_reverse _)
  rw [Pass.token]
  generalize Pass.close l _ = q at hq ⊢
  generalize d :: w = v at hs hr hl hk hq ⊢
  simp only [Copy.addWord?, hs, hr, hl, Option.bind_eq_bind, Option.bind_some]
  cases hq
  case other hn =>
    rw [hn]
    exact ⟨c, rfl, { hk with }⟩
  case tooLong hn ha =>
    rw [hn, ha]
    exact ⟨_, rfl, { hk with tooLong := congrArg (· + 1) h.tooLong }⟩
  case untracked hn ha hu =>
    obtain ⟨hm, he⟩ := h.numbers.enroll_of_eq_none hu
    rw [hn, ha, hm]
    exact ⟨_, rfl, { hk with numbers := he.symm ▸ h.numbers, untracked := congrArg (· + 1) h.untracked }⟩
  case tracked k hn ha ht =>
    obtain ⟨hm, he⟩ := h.numbers.enroll ht
    have hg := (he.number v).trans ht
    -- What lies between the last name that was replaced and this one.
    have hb : slice? (encode (read ++ v ++ cs)) c.copied (encode read).length = some (encode p.pending.reverse) := by
      obtain ⟨done, hd, hc⟩ := h.copied
      have hs := slice?_encode done p.pending.reverse (v ++ cs)
      rwa [← hd, ← hc, ← List.append_assoc] at hs
    rw [hn, ha, hm]
    simp only [hg, hb, Option.bind_some, Bool.not_true, Bool.false_eq_true, if_false]
    refine ⟨_, rfl, he, ?written, ⟨read ++ v, by simp [Pass.replace], rfl⟩, h.untracked, h.tooLong⟩
    simp [h.written, Pass.replace, encode_append]

theorem transcript (h : Follows c read p) :
    ∃ rest, slice? (encode read) c.copied (encode read).length = some rest ∧
      c.written ++ rest = encode p.result.text := by
  have ⟨done, hr, hc⟩ := h.copied
  have hs := slice?_encode done p.pending.reverse []
  rw [List.append_nil, ← hr, ← hc] at hs
  exact ⟨_, hs, by simp [h.written, Pass.result, encode_append]⟩

end Follows

theorem copy?_encode (h : Follows c read p) (cs : List Char) :
    ∃ e, copy? l (encode (read ++ cs)) (encode read).length c = some e ∧
      Follows e (read ++ cs) ((Token.ofText cs).foldl (Pass.token l) p) := by
  induction cs using wordInduction generalizing read p c
  case nil => exact ⟨c, copy?_of_le (by simp), by simpa using h⟩
  case mark d cs hd hi =>
    have ⟨e, he, hf⟩ := hi (p := p.token l (.mark d)) (h.keep [d])
    rw [List.append_assoc, List.singleton_append] at he hf
    rw [copy?_mark hd, Token.ofText_mark hd]
    exact ⟨e, he, hf⟩
  case word w cs hw hcs hi =>
    rw [Token.ofText_word hw hcs, List.foldl_cons, ← List.append_assoc]
    cases w
    case nil => exact absurd rfl hw.ne_nil
    case cons d w =>
      rw [copy?_word hw hcs]
      cases hd : d.isDigit
      case true => exact hi (h.literal hd)
      case false =>
        have ⟨e, he, hf⟩ := h.addWord? (l := l) hd hw cs
        rw [he]
        exact hi hf

theorem canonicalize?_encode (l : Limits) (cs : List Char) :
    canonicalize? l (encode cs) =
      some ⟨encode (canonicalize l cs).text, (canonicalize l cs).untracked, (canonicalize l cs).tooLong⟩ := by
  have ⟨c, hc, hf⟩ := copy?_encode (l := l) Follows.nil cs
  rw [List.nil_append, encode_nil, List.length_nil] at hc
  have ⟨rest, hs, hr⟩ := hf.transcript
  rw [List.nil_append] at hs
  simp only [canonicalize?, hc, hs, hr, canonicalize_eq_result, hf.untracked, hf.tooLong, Option.bind_eq_bind,
    Option.bind_some]
  rfl

theorem getElem?_charIndices (i n : Nat) (cs : List Char) :
    (charIndices i cs)[n]? = cs[n]?.map fun c => (i + (encode (cs.take n)).length, c) := by
  induction cs generalizing i n
  case nil => simp [charIndices]
  case cons c cs hi =>
    cases n
    case zero   => simp [charIndices, encode_nil]
    case succ n =>
      simp only [charIndices, List.getElem?_cons_succ, hi, List.take_succ_cons]
      simp [encode_cons, Nat.add_assoc]

theorem fingerprint?_eq (b : Block) : fingerprint? b = some (encode b.fingerprint) := by
  rw [fingerprint?, getElem?_charIndices, Block.fingerprint]
  by_cases hl : Block.fingerprintLength < b.normal.length
  case pos =>
    have hs := slice?_encode [] (b.normal.take Block.fingerprintLength) (b.normal.drop Block.fingerprintLength)
    rw [List.nil_append, List.take_append_drop] at hs
    rw [List.getElem?_eq_getElem hl, Option.map_some, Nat.zero_add]
    exact hs
  case neg =>
    rw [List.getElem?_eq_none (Nat.not_lt.mp hl), List.take_of_length_le (Nat.not_lt.mp hl)]
    rfl

-- Bytes that were found, and the text that they are.
structure Spells (found : Option (List UInt8)) (cs : List Char) : Prop where
  bytes : found = some (encode cs)
  valid : found.bind decode? = some cs

theorem spells_of_eq {found : Option (List UInt8)} (h : found = some (encode cs)) : Spells found cs where
  bytes := h
  valid := by rw [h, Option.bind_some, decode?_encode]

-- What becomes of a text whose bytes are read one by one.
structure KeepsCharacters (l : Limits) (text : List Char) : Prop where
  -- A cut elsewhere than from one place between characters to a later one would leave no result below.
  cut : ∀ start stop out, slice? (encode text) start stop = some out ↔
    ∃ front middle back, text = front ++ middle ++ back ∧ start = (encode front).length ∧
      stop = (encode (front ++ middle)).length ∧ out = encode middle
  comment : Spells (beforeComment? (encode text)) (beforeComment text)
  strip : Spells (strip? text) (Code.strip text)
  canonicalize : Spells ((canonicalize? l (encode text)).map Transcript.text) (Code.canonicalize l text).text
  untracked : (canonicalize? l (encode text)).map Transcript.untracked = some (Code.canonicalize l text).untracked
  tooLong : (canonicalize? l (encode text)).map Transcript.tooLong = some (Code.canonicalize l text).tooLong
  fingerprint : ∀ b : Block, b.normal = text → Spells (fingerprint? b) b.fingerprint

theorem keepsCharacters (l : Limits) (text : List Char) : KeepsCharacters l text where
  cut _ _ _       := slice?_encode_eq_some_iff
  comment         := spells_of_eq (beforeComment?_encode text)
  strip           := spells_of_eq (strip?_eq text)
  canonicalize    := spells_of_eq (by rw [canonicalize?_encode, Option.map_some])
  untracked       := by rw [canonicalize?_encode, Option.map_some]
  tooLong         := by rw [canonicalize?_encode, Option.map_some]
  fingerprint b _ := spells_of_eq (fingerprint?_eq b)

end DuplicateBlocks.Code.Bytes
