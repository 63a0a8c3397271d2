import DuplicateBlocks.Bucket
import DuplicateBlocks.Proofs.FirstSeen
import Mathlib.Algebra.Group.Action.Defs
import Mathlib.Algebra.Order.BigOperators.Group.List
import Mathlib.Algebra.Order.Group.Nat
import Mathlib.Data.List.Flatten
import Mathlib.Data.List.NodupEquivFin
import Mathlib.Data.List.Perm.Basic

open scoped List

namespace DuplicateBlocks

variable {α κ : Type} [BEq κ]

-- A list sorted by a key, with the keys in the order in which they first occur.
def sortedBy (key : α → κ) (xs : List α) : List (List α) :=
  (xs.map key).eraseDups.map fun k => xs.filter (key · == k)

theorem sortedBy_map {β : Type} (key : α → κ) (f : β → α) (xs : List β) :
    sortedBy key (xs.map f) = (sortedBy (key ∘ f) xs).map (List.map f) := by
  simp [sortedBy, List.filter_map, Function.comp_def]

theorem pairwise_sortedBy [LawfulBEq κ] {key : α → κ} {xs : List α} {R : α → α → Prop} :
    (∀ ys ∈ sortedBy key xs, ys.Pairwise R) ↔ xs.Pairwise fun a b => key a = key b → R a b := by
  simp only [sortedBy, List.mem_map, List.mem_eraseDups, forall_exists_index, and_imp,
    forall_apply_eq_imp_iff₂, List.pairwise_filter, beq_iff_eq]
  simp only [List.pairwise_iff_getElem]
  constructor
  case mp  => exact fun h i j hi hj hij he => h _ (List.getElem_mem hi) i j hi hj hij rfl he.symm
  case mpr => exact fun h a _ i j hi hj hij hk hl => h i j hi hj hij (hk.trans hl.symm)

theorem flatMap_filter_perm [LawfulBEq κ] (key : α → κ) (xs : List α) {ks : List κ} (h : ks.Nodup) :
    ks.flatMap (fun k => xs.filter (key · == k)) ~ xs.filter fun x => ks.contains (key x) := by
  induction ks
  case nil => simp
  case cons k ks hi =>
    have ⟨hk, hn⟩ := List.nodup_cons.mp h
    have hp := List.filter_append_perm (key · == k) (xs.filter fun x => (k :: ks).contains (key x))
    rw [List.filter_filter, List.filter_filter] at hp
    refine .trans ?_ hp
    rw [List.flatMap_cons]
    refine .append (.of_eq ?first) ((hi hn).trans (.of_eq ?others))
    case first => exact List.filter_congr fun x _ => by simp +contextual
    case others =>
      refine List.filter_congr fun x _ => ?_
      by_cases hx : key x = k
      case pos => simp [hx, hk]
      case neg => simp [hx]

theorem flatten_sortedBy_perm [LawfulBEq κ] (key : α → κ) (xs : List α) : (sortedBy key xs).flatten ~ xs := by
  refine (flatMap_filter_perm key xs (FirstSeen.nodup_eraseDups _)).trans (.of_eq ?_)
  rw [List.filter_eq_self]
  exact fun x hx => by simpa using ⟨x, hx, rfl⟩

namespace Bucket

def fingerprints (bs : List Block) : List (List Char) :=
  (bs.map Block.fingerprint).eraseDups

def sharing (bs : List Block) (k : List Char) : List Block :=
  bs.filter (·.fingerprint == k)

theorem mem_fingerprints {bs : List Block} {k : List Char} :
    k ∈ fingerprints bs ↔ ∃ b ∈ bs, b.fingerprint = k := by
  simp [fingerprints]

theorem fingerprints_concat (bs : List Block) (b : Block) :
    fingerprints (bs ++ [b]) =
      if b.fingerprint ∈ fingerprints bs then fingerprints bs else fingerprints bs ++ [b.fingerprint] := by
  simp only [fingerprints, List.map_append, List.map_cons, List.map_nil, FirstSeen.eraseDups_concat,
    List.mem_eraseDups]

theorem sharing_concat (bs : List Block) (b : Block) (k : List Char) :
    sharing (bs ++ [b]) k = if k == b.fingerprint then sharing bs k ++ [b] else sharing bs k := by
  by_cases h : k = b.fingerprint <;> simp [sharing, h, eq_comm (a := b.fingerprint)]

theorem sharing_of_not_mem {bs : List Block} {k : List Char} (h : k ∉ fingerprints bs) :
    sharing bs k = [] := by
  rw [mem_fingerprints] at h
  simpa [sharing] using h

-- A shelf into which the blocks `bs` were put.
structure Shelf.Holds (s : Shelf) (bs : List Block) : Prop where
  slots : ∀ k, s.slots[String.ofList k]? = (fingerprints bs).idxOf? k
  found : s.found.toList = (fingerprints bs).map fun k => (k, (sharing bs k).toArray)

namespace Shelf.Holds

variable {s : Shelf} {bs : List Block}

theorem nil : Shelf.Holds {} [] := by
  constructor <;> simp [fingerprints]

theorem put (h : s.Holds bs) (b : Block) : (s.put b).Holds (bs ++ [b]) := by
  unfold Shelf.put
  simp only [h.slots]
  cases hi : (fingerprints bs).idxOf? b.fingerprint
  case some i =>
    have hk : b.fingerprint ∈ fingerprints bs := List.isSome_idxOf?.mp (by simp [hi])
    constructor
    case slots => simpa [fingerprints_concat, hk] using h.slots
    case found =>
      have hn : (fingerprints bs).Nodup := FirstSeen.nodup_eraseDups _
      rw [Array.toList_modify, h.found, FirstSeen.modify_map_idxOf? hn hi, fingerprints_concat, if_pos hk]
      refine List.map_congr_left fun k _ => ?_
      rw [sharing_concat]
      split <;> simp
  case none =>
    have hk : b.fingerprint ∉ fingerprints bs := List.idxOf?_eq_none_iff.mp hi
    have hl : s.found.size = (fingerprints bs).length := by simp [← Array.length_toList, h.found]
    constructor
    case slots =>
      intro k
      rw [Std.HashMap.getElem?_insert, fingerprints_concat, if_neg hk, FirstSeen.idxOf?_concat, h.slots, hl]
      by_cases he : b.fingerprint = k
      case pos => subst he; simp [hk]
      case neg => simp [he, String.ofList_inj]
    case found =>
      rw [Array.toList_push, h.found, fingerprints_concat, if_neg hk, List.map_append]
      congr 1
      · refine List.map_congr_left fun k hm => ?_
        have he : ¬k = b.fingerprint := fun he => hk (he ▸ hm)
        simp [sharing_concat, he]
      · simp [sharing_concat, sharing_of_not_mem hk]

theorem foldl (h : s.Holds bs) (cs : List Block) : (cs.foldl Shelf.put s).Holds (bs ++ cs) := by
  induction cs generalizing s bs
  case nil => simpa using h
  case cons c cs hi => simpa using hi (h.put c)

end Shelf.Holds

theorem ofBlocks_eq (bs : List Block) :
    ofBlocks bs = ((fingerprints bs).map fun k => ⟨k, sharing bs k⟩).filter (2 ≤ ·.blocks.length) := by
  have h : (bs.foldl Shelf.put {}).Holds bs := Shelf.Holds.nil.foldl bs
  rw [ofBlocks, h.found]
  simp [List.filter_map, Function.comp_def]

theorem map_blocks_ofBlocks (bs : List Block) :
    (ofBlocks bs).map blocks = (sortedBy Block.fingerprint bs).filter (2 ≤ ·.length) := by
  rw [ofBlocks_eq, sortedBy, List.filter_map, List.filter_map, List.map_map]
  rfl

theorem length_flatten_ofBlocks_le (bs : List Block) : ((ofBlocks bs).map blocks).flatten.length ≤ bs.length := by
  have hp := (flatten_sortedBy_perm Block.fingerprint bs).length_eq
  have hs := (List.filter_sublist (p := fun xs : List Block => decide (2 ≤ xs.length))
    (l := sortedBy Block.fingerprint bs)).flatten.length_le
  rw [map_blocks_ofBlocks]
  omega

theorem two_mul_length_ofBlocks_le (bs : List Block) : 2 * (ofBlocks bs).length ≤ bs.length := by
  have hl := length_flatten_ofBlocks_le bs
  have hm : ∀ xs ∈ (ofBlocks bs).map blocks, 2 ≤ xs.length := by
    intro xs hx
    rw [map_blocks_ofBlocks, List.mem_filter] at hx
    simpa using hx.right
  have ht := List.card_nsmul_le_sum (((ofBlocks bs).map blocks).map List.length) 2 (by simpa using hm)
  rw [← List.length_flatten, List.length_map, List.length_map, smul_eq_mul] at ht
  omega

theorem length_sharing (bs : List Block) (k : List Char) :
    (sharing bs k).length = (bs.map Block.fingerprint).count k := by
  rw [sharing, ← List.countP_eq_length_filter, List.count, List.countP_map]
  rfl

theorem mem_ofBlocks {bs : List Block} {b : Bucket} :
    b ∈ ofBlocks bs ↔
      2 ≤ (bs.map Block.fingerprint).count b.fingerprint ∧ b.blocks = sharing bs b.fingerprint := by
  rw [ofBlocks_eq, List.mem_filter, decide_eq_true_eq]
  constructor
  case mp =>
    rintro ⟨hb, hl⟩
    obtain ⟨k, _, rfl⟩ := List.mem_map.mp hb
    exact ⟨length_sharing bs k ▸ hl, rfl⟩
  case mpr =>
    rintro ⟨hc, hb⟩
    have hk : b.fingerprint ∈ bs.map Block.fingerprint := List.count_pos_iff.mp (by omega)
    refine ⟨List.mem_map.mpr ⟨b.fingerprint, List.mem_eraseDups.mpr hk, ?_⟩, ?_⟩
    · rw [← hb]
    · rw [hb, length_sharing]
      exact hc

theorem mem_sharing {bs : List Block} {k : List Char} {x : Block} : x ∈ sharing bs k ↔ x ∈ bs ∧ x.fingerprint = k := by
  simp [sharing]

theorem two_le_count_of_ne {bs : List Block} {i j : Fin bs.length} (hij : i ≠ j)
    (he : bs[i].fingerprint = bs[j].fingerprint) : 2 ≤ (bs.map Block.fingerprint).count bs[i].fingerprint := by
  wlog hlt : i < j generalizing i j
  case inr => exact he ▸ this hij.symm he.symm (lt_of_le_of_ne (not_lt.mp hlt) hij.symm)
  have hl : (bs.map Block.fingerprint).length = bs.length := List.length_map ..
  have hd : List.Duplicate bs[i].fingerprint (bs.map Block.fingerprint) :=
    List.duplicate_iff_exists_distinct_get.mpr ⟨i.cast hl.symm, j.cast hl.symm, hlt, by simp, by simpa using he⟩
  exact List.replicate_sublist_iff.mp (List.duplicate_iff_sublist.mp hd)

theorem mem_map_fingerprint_ofBlocks {bs : List Block} {k : List Char} :
    k ∈ (ofBlocks bs).map Bucket.fingerprint ↔ 2 ≤ (bs.map Block.fingerprint).count k := by
  constructor
  case mp =>
    intro hk
    have ⟨b, hb, he⟩ := List.mem_map.mp hk
    exact he ▸ (mem_ofBlocks.mp hb).left
  case mpr => exact fun hc => List.mem_map.mpr ⟨⟨k, sharing bs k⟩, mem_ofBlocks.mpr ⟨hc, rfl⟩, rfl⟩

theorem pairwise_ofBlocks (bs : List Block) :
    (ofBlocks bs).Pairwise fun a b =>
      (bs.map Block.fingerprint).idxOf a.fingerprint < (bs.map Block.fingerprint).idxOf b.fingerprint := by
  rw [ofBlocks_eq]
  refine List.Pairwise.filter _ (List.pairwise_map.mpr ?_)
  exact FirstSeen.pairwise_idxOf_eraseDups (bs.map Block.fingerprint)

end Bucket

theorem Block.fingerprint_eq_iff {a b : Block} :
    a.fingerprint = b.fingerprint ↔ ∀ n < 50, a.normal[n]? = b.normal[n]? := by
  rw [fingerprint, fingerprint, List.ext_getElem?_iff]
  refine forall_congr' fun n => ?_
  by_cases hn : n < 50 <;> simp [fingerprintLength, hn]

namespace Bucket

-- Buckets that sort a list of blocks and leave out the blocks that are alone.
structure Sorts (buckets : List Bucket) (bs : List Block) : Prop where
  distinct : (buckets.map fingerprint).Nodup
  -- In the order of the first places at which the fingerprints occur.
  ordered  : buckets.Pairwise fun a b =>
    (bs.map Block.fingerprint).idxOf a.fingerprint < (bs.map Block.fingerprint).idxOf b.fingerprint
  present  : ∀ k, k ∈ buckets.map fingerprint ↔ 2 ≤ (bs.map Block.fingerprint).count k
  blocks   : ∀ b ∈ buckets, b.blocks = bs.filter (·.fingerprint == b.fingerprint)
  -- A text that ends within the first 50 characters has to end there in both blocks.
  together : ∀ i j : Fin bs.length, i ≠ j →
    ((∃ b ∈ buckets, bs[i] ∈ b.blocks ∧ bs[j] ∈ b.blocks) ↔ ∀ n < 50, bs[i].normal[n]? = bs[j].normal[n]?)

theorem sorts_ofBlocks (bs : List Block) : Sorts (ofBlocks bs) bs := by
  constructor
  case distinct =>
    refine List.pairwise_map.mpr ((pairwise_ofBlocks bs).imp fun hlt he => ?_)
    exact Nat.lt_irrefl _ (he ▸ hlt)
  case ordered => exact pairwise_ofBlocks bs
  case present => exact fun k => mem_map_fingerprint_ofBlocks
  case blocks  => exact fun b hb => (mem_ofBlocks.mp hb).right
  case together =>
    intro i j hij
    rw [← Block.fingerprint_eq_iff]
    constructor
    case mp =>
      rintro ⟨b, hb, hi, hj⟩
      rw [(mem_ofBlocks.mp hb).right, mem_sharing] at hi hj
      exact hi.right.trans hj.right.symm
    case mpr =>
      intro he
      refine ⟨⟨bs[i].fingerprint, sharing bs bs[i].fingerprint⟩, ?_, ?_, ?_⟩
      · exact mem_ofBlocks.mpr ⟨two_le_count_of_ne hij he, rfl⟩
      · exact mem_sharing.mpr ⟨List.getElem_mem .., rfl⟩
      · exact mem_sharing.mpr ⟨List.getElem_mem .., he.symm⟩

end Bucket
end DuplicateBlocks
