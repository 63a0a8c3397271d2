import DuplicateBlocks.Proofs.Grouping.Greedy
import DuplicateBlocks.Proofs.Number
import DuplicateBlocks.Proofs.Scan.Restriction

open scoped List

namespace DuplicateBlocks

namespace Block

variable {reach : Nat} {a b : Block}

theorem overlaps_iff : overlaps reach a b = true ↔ a.source = b.source ∧ distance a.first b.first < reach := by
  simp [overlaps, and_comm]

theorem overlaps_eq_false_iff :
    overlaps reach a b = false ↔ (a.source = b.source → reach ≤ distance a.first b.first) := by
  rw [← Bool.not_eq_true, overlaps_iff, not_and, Nat.not_lt]

end Block

-- The positions of some blocks in one bucket.
structure Site where
  bucket : Nat
  root : Nat
  others : List Nat

namespace Site

def positions (t : Site) : List Nat :=
  t.root :: t.others

def places (t : Site) : List (Nat × Nat) :=
  t.positions.map (t.bucket, ·)

end Site

def Bucket.blockAt? (bs : List Bucket) (bucket position : Nat) : Option Block :=
  bs[bucket]?.bind (·.blocks[position]?)

namespace Group

-- The members of a group stand at a site, in order.
structure StandsAt (bs : List Bucket) (t : Site) (g : Group) : Prop where
  increasing : t.positions.Pairwise (· < ·)
  members    : t.positions.map (Bucket.blockAt? bs t.bucket) = g.members.map some

-- What every group is like, under given settings.
structure WellFormed (s : Settings) (g : Group) : Prop where
  several    : 2 ≤ g.members.length
  similar    : ∀ b ∈ g.others, s.threshold.le (Similarity.score g.root.normal b.normal) = true
  apart      : g.members.Pairwise fun a b => a.source = b.source → max 1 s.minLines ≤ Block.distance a.first b.first
  lowest     : Binary64.IsLeast g.lowest (.hundred :: g.others.map fun b => Similarity.score g.root.normal b.normal)
  fileCount  : g.fileCount = (g.members.map Block.source).toFinset.card
  isSameFile : g.isSameFile = true ↔ g.fileCount = 1
  digest     : g.digest = (Text.Utf8.encode g.root.normal).foldl (fun h b => (h ^^^ b.toUInt64) * 0x100000001b3)
                0xcbf29ce484222325

end Group

namespace Scan

open Grouping

variable {s : Settings} {bs : List Bucket} {c : Counters} {xs : List (Block × Nat × Nat)} {x : Block × Nat × Nat}
  {k : Cluster (Block × Nat × Nat)}

def placedIn (i : Nat) (blocks : List Block) : List (Block × Nat × Nat) :=
  blocks.zipIdx.map fun (x, j) => (x, i, j)

def placed (bs : List Bucket) : List (List (Block × Nat × Nat)) :=
  bs.zipIdx.map fun (b, i) => placedIn i b.blocks

-- How blocks are grouped that carry their places with them.
def placedGrouping (s : Settings) : Grouping (Block × Nat × Nat) :=
  (grouping s).comap Prod.fst

def located (s : Settings) (bs : List Bucket) (c : Counters) : List (Cluster (Block × Nat × Nat)) :=
  ((placedGrouping s).runAll (placed bs) { counters := c }).found.reverse

theorem mem_placedIn_iff {i : Nat} {blocks : List Block} :
    x ∈ placedIn i blocks ↔ x.2.1 = i ∧ blocks[x.2.2]? = some x.1 := by
  have ⟨a, m, j⟩ := x
  simp only [placedIn, List.mem_map, Prod.exists, Prod.mk.injEq, List.mem_zipIdx_iff_getElem?]
  constructor
  case mp  => rintro ⟨_, _, h, rfl, rfl, rfl⟩; exact ⟨rfl, h⟩
  case mpr => rintro ⟨rfl, h⟩; exact ⟨a, j, h, rfl, rfl, rfl⟩

theorem mem_placed_iff : xs ∈ placed bs ↔ ∃ i b, bs[i]? = some b ∧ xs = placedIn i b.blocks := by
  simp only [placed, List.mem_map, Prod.exists, List.mem_zipIdx_iff_getElem?]
  constructor
  case mp  => rintro ⟨b, i, h, rfl⟩; exact ⟨i, b, h, rfl⟩
  case mpr => rintro ⟨i, b, h, rfl⟩; exact ⟨b, i, h, rfl⟩

theorem map_fst_placedIn (i : Nat) (blocks : List Block) : (placedIn i blocks).map Prod.fst = blocks := by
  simp [placedIn, Function.comp_def]

theorem map_snd_placedIn (i : Nat) (blocks : List Block) :
    (placedIn i blocks).map Prod.snd = (List.range blocks.length).map (i, ·) := by
  have hj : (fun p : Block × Nat => (i, p.2)) = (i, ·) ∘ Prod.snd := rfl
  simp only [placedIn, List.map_map, Function.comp_def]
  rw [hj, ← List.map_map, List.zipIdx_map_snd, List.range_eq_range']

theorem pairwise_placedIn (i : Nat) (blocks : List Block) : (placedIn i blocks).Pairwise (·.2.2 < ·.2.2) := by
  have hp : (placedIn i blocks).map (·.2.2) = List.range blocks.length := by
    have hm := congrArg (List.map Prod.snd) (map_snd_placedIn i blocks)
    simpa [Function.comp_def] using hm
  exact List.pairwise_map.mp (hp ▸ List.pairwise_lt_range)

theorem map_placed (bs : List Bucket) : (placed bs).map (List.map Prod.fst) = bs.map Bucket.blocks := by
  have hb : (fun p : Bucket × Nat => p.1.blocks) = Bucket.blocks ∘ Prod.fst := rfl
  simp only [placed, List.map_map, Function.comp_def, map_fst_placedIn]
  rw [hb, ← List.map_map, List.zipIdx_map_fst]

theorem nodup_flatten_placed (bs : List Bucket) : ((placed bs).flatten.map Prod.snd).Nodup := by
  have hd : bs.zipIdx.Pairwise fun p q => p.2 ≠ q.2 := by
    have hn : (bs.zipIdx.map Prod.snd).Nodup := List.zipIdx_map_snd .. ▸ List.nodup_range'
    exact List.pairwise_map.mp hn
  rw [List.map_flatten, placed, List.map_map, ← List.flatMap_def, List.nodup_flatMap]
  constructor
  case left =>
    intro (b, i) _
    simp only [Function.comp_apply, map_snd_placedIn]
    exact List.nodup_range.map fun _ _ => by simp
  case right =>
    refine hd.imp fun {p q} hpq => ?_
    intro x hp hq
    simp only [Function.comp_apply, map_snd_placedIn] at hp hq
    have ⟨_, _, hp⟩ := List.mem_map.mp hp
    have ⟨_, _, hq⟩ := List.mem_map.mp hq
    exact hpq (congrArg Prod.fst (hp.trans hq.symm))

theorem groups_eq_located (s : Settings) (bs : List Bucket) (c : Counters) :
    (Bucket.groups (grouping s) bs c).1 = (located s bs c).map fun k => (k.map Prod.fst).group := by
  have ha := (along_comap Prod.fst (grouping s)).runAll rfl (placed bs) { counters := c }
  rw [map_placed] at ha
  have hf : ((grouping s).runAll (bs.map Bucket.blocks) { counters := c }).found =
      ((placedGrouping s).runAll (placed bs) { counters := c }).found.map (Cluster.map Prod.fst) :=
    (congrArg Progress.found ha).symm
  simp only [Bucket.groups, hf, located, ← List.map_reverse, List.map_map]
  rfl

theorem cutShort_located (s : Settings) (bs : List Bucket) (c : Counters) :
    CutShort (placedGrouping s) (located s bs c) ((placed bs).flatMap (placedGrouping s).clusters) := by
  have ⟨ks, hf, hk⟩ := ran_runAll (placedGrouping s) (placed bs) { counters := c } rfl |>.exists_cutShort
  simpa [located, hf] using hk

theorem flatMap_subperm {α : Type} {f : List α → List α} (h : ∀ xs, f xs <+~ xs) (xss : List (List α)) :
    xss.flatMap f <+~ xss.flatten := by
  induction xss
  case nil => exact List.Subperm.refl _
  case cons xs xss hi => exact (h xs).append hi

theorem exists_placed_of_mem_located (h : k ∈ located s bs c) : ∃ xs ∈ placed bs, k.members <+ xs := by
  have ⟨l, hl, hp⟩ := (cutShort_located s bs c).exists_longer h
  have ⟨xs, hx, hl⟩ := List.mem_flatMap.mp hl
  exact ⟨xs, hx, hp.sublist.trans (from_of_mem_clusters hl).sublist⟩

theorem sound_of_mem_located (h : k ∈ located s bs c) : k.Sound (placedGrouping s) := by
  refine (cutShort_located s bs c).sound ?_ k h
  intro k hk
  have ⟨_, _, hk⟩ := List.mem_flatMap.mp hk
  exact sound_of_mem_clusters hk

def siteOf (k : Cluster (Block × Nat × Nat)) : Site where
  bucket := k.root.2.1
  root   := k.root.2.2
  others := k.others.map (·.2.2)

theorem positions_siteOf (k : Cluster (Block × Nat × Nat)) : (siteOf k).positions = k.members.map (·.2.2) := rfl

theorem mem_positions_siteOf (h : x ∈ k.members) : x.2.2 ∈ (siteOf k).positions :=
  positions_siteOf k ▸ List.mem_map_of_mem (f := (·.2.2)) h

theorem bucket_of_mem_members (hxs : xs ∈ placed bs) (hk : k.members <+ xs) (hx : x ∈ k.members) :
    x.2.1 = (siteOf k).bucket := by
  have ⟨i, b, _, he⟩ := mem_placed_iff.mp hxs
  subst he
  have hr := mem_placedIn_iff.mp (hk.subset List.mem_cons_self)
  exact (mem_placedIn_iff.mp (hk.subset hx)).left.trans hr.left.symm

theorem places_siteOf (hxs : xs ∈ placed bs) (hk : k.members <+ xs) : (siteOf k).places = k.members.map Prod.snd := by
  rw [Site.places, positions_siteOf, List.map_map]
  exact List.map_congr_left fun x hx => Prod.ext (bucket_of_mem_members hxs hk hx).symm rfl

theorem standsAt_siteOf (hxs : xs ∈ placed bs) (hk : k.members <+ xs) :
    (k.map Prod.fst).group.StandsAt bs (siteOf k) := by
  have ⟨i, b, hb, he⟩ := mem_placed_iff.mp hxs
  constructor
  case increasing =>
    rw [positions_siteOf, List.pairwise_map]
    exact (he ▸ pairwise_placedIn i b.blocks).sublist hk
  case members =>
    have hm : (k.map Prod.fst).group.members = k.members.map Prod.fst := rfl
    rw [positions_siteOf, hm, List.map_map, List.map_map]
    refine List.map_congr_left fun x hx => ?_
    have ⟨hi, hx'⟩ := mem_placedIn_iff.mp (he ▸ hk.subset hx)
    rw [Function.comp_apply, ← bucket_of_mem_members hxs hk hx, hi, Bucket.blockAt?, hb]
    exact hx'

theorem forall₂_standsAt (s : Settings) (bs : List Bucket) (c : Counters) :
    List.Forall₂ (Group.StandsAt bs) ((located s bs c).map siteOf) (Bucket.groups (grouping s) bs c).1 := by
  rw [groups_eq_located, List.forall₂_map_left_iff, List.forall₂_map_right_iff, List.forall₂_same]
  intro k hk
  have ⟨xs, hxs, hk⟩ := exists_placed_of_mem_located hk
  exact standsAt_siteOf hxs hk

-- No place is in two clusters, or twice in one.
theorem nodup_places (s : Settings) (bs : List Bucket) (c : Counters) :
    (((located s bs c).map siteOf).flatMap Site.places).Nodup := by
  have hp : ((located s bs c).map siteOf).flatMap Site.places =
      ((located s bs c).flatMap Cluster.members).map Prod.snd := by
    rw [List.flatMap_map, List.map_flatMap]
    refine List.flatMap_congr fun k hk => ?_
    have ⟨xs, hxs, hk⟩ := exists_placed_of_mem_located hk
    exact places_siteOf hxs hk
  have hs : (located s bs c).flatMap Cluster.members <+~ (placed bs).flatten := by
    refine (cutShort_located s bs c).members_sublist.subperm.trans ?_
    rw [List.flatMap_assoc]
    exact flatMap_subperm (placedGrouping s).flatMap_members_subperm (placed bs)
  have hn := nodup_flatten_placed bs
  obtain ⟨_, he, hf⟩ := hs
  rw [hp, ← (he.map Prod.snd).nodup_iff]
  exact hn.sublist (hf.map Prod.snd)

theorem lowest_eq (g : Grouping Block) (root : Block) (others : List Block) :
    g.lowest root .hundred others = (others.map (g.score root)).foldl Binary64.min .hundred := by
  rw [List.foldl_map]
  rfl

theorem wellFormed_of_sound (h : k.Sound (placedGrouping s)) : (k.map Prod.fst).group.WellFormed s := by
  have hsimilar : ∀ b ∈ k.others.map Prod.fst,
      s.threshold.le (Similarity.score k.root.1.normal b.normal) = true := by
    intro b hb
    obtain ⟨x, hx, he⟩ := List.mem_map.mp hb
    exact he ▸ h.similar x hx
  constructor
  case several =>
    have ho := List.length_pos_iff.mpr h.others
    simp only [Group.members, Cluster.group, Cluster.map, List.length_cons, List.length_map]
    omega
  case similar => exact hsimilar
  case apart =>
    have hm : (k.map Prod.fst).group.members = k.members.map Prod.fst := rfl
    rw [hm, List.pairwise_map]
    exact h.apart.imp fun hc => Block.overlaps_eq_false_iff.mp hc
  case lowest =>
    have hl : (k.map Prod.fst).group.lowest = _ :=
      h.lowest.trans ((along_comap Prod.fst (grouping s)).lowest k.root .hundred k.others)
    rw [hl, lowest_eq]
    refine Binary64.isLeast_foldl_min (by simp [Binary64.hundred]) ?_
    intro x hx
    obtain ⟨b, hb, he⟩ := List.mem_map.mp hx
    exact he ▸ (Binary64.ne_nan_of_le (hsimilar b hb)).right
  case fileCount  => exact FirstSeen.length_eraseDups _
  case isSameFile => exact beq_iff_eq
  case digest     => rfl

-- Every group consists of blocks of one bucket, in their order, that are similar to the first of them and apart from
-- one another, and it is told right what they have in common. That holds from any state of the counters on, also
-- where a refused comparison ends the last group early.
theorem wellFormed_groups (s : Settings) (bs : List Bucket) (c : Counters) :
    ∃ sites : List Site, List.Forall₂ (Group.StandsAt bs) sites (Bucket.groups (grouping s) bs c).1 ∧
      (sites.flatMap Site.places).Nodup ∧ ∀ g ∈ (Bucket.groups (grouping s) bs c).1, g.WellFormed s := by
  refine ⟨(located s bs c).map siteOf, forall₂_standsAt s bs c, nodup_places s bs c, ?_⟩
  intro g hg
  have ⟨k, hk, he⟩ := List.mem_map.mp (groups_eq_located s bs c ▸ hg)
  exact he ▸ wellFormed_of_sound (sound_of_mem_located hk)

-- The sites leave nothing behind. Beside a site, what comes after its root and is at no site with an earlier root
-- overlaps an earlier member or is not similar to the root; what is at no site at all is so to each other.
structure Exhausted (s : Settings) (bs : List Bucket) (sites : List Site) : Prop where
  beside : ∀ t ∈ sites, ∀ (j : Nat) (a b : Block), Bucket.blockAt? bs t.bucket t.root = some a →
            Bucket.blockAt? bs t.bucket j = some b → t.root < j → j ∉ t.positions →
            (∀ u ∈ sites, u.bucket = t.bucket → u.root < t.root → j ∉ u.positions) →
            (∃ i ∈ t.positions, i < j ∧
              ∃ m, Bucket.blockAt? bs t.bucket i = some m ∧ Block.overlaps s.window m b = true) ∨
              s.threshold.le (Similarity.score a.normal b.normal) = false
  alone  : ∀ (n i j : Nat) (a b : Block), Bucket.blockAt? bs n i = some a → Bucket.blockAt? bs n j = some b → i < j →
            (∀ t ∈ sites, t.bucket = n → i ∉ t.positions ∧ j ∉ t.positions) →
            Block.overlaps s.window a b = true ∨ s.threshold.le (Similarity.score a.normal b.normal) = false

theorem located_of_not_truncated (h : (Bucket.groups (grouping s) bs c).2.comparisonsTruncated = false) :
    located s bs c = (placed bs).flatMap (placedGrouping s).clusters := by
  have hc : c.comparisonsTruncated = false := by
    rw [← Bool.not_eq_true]
    intro hc
    have ht : (Bucket.groups (grouping s) bs c).2.comparisonsTruncated = true := truncated_runAll hc
    exact Bool.false_ne_true (h.symm.trans ht)
  have ha := (along_comap Prod.fst (grouping s)).runAll rfl (placed bs) { counters := c }
  rw [map_placed] at ha
  have hs : ((placedGrouping s).runAll (placed bs) { counters := c }).stopped = false := by
    rw [stopped_runAll rfl hc]
    exact (congrArg (·.counters.comparisonsTruncated) ha :).trans h
  have hf := ran_runAll (placedGrouping s) (placed bs) { counters := c } rfl |>.found_of_not_stopped hs
  simp [located, hf]

theorem blockAt?_eq_some_iff {n j : Nat} {y : Block} :
    Bucket.blockAt? bs n j = some y ↔ ∃ b, bs[n]? = some b ∧ (y, n, j) ∈ placedIn n b.blocks := by
  simp [Bucket.blockAt?, mem_placedIn_iff, Option.bind_eq_some_iff]

theorem mem_placedIn_of_mem_members {b : Bucket} {n : Nat}
    (hk : k ∈ (placedGrouping s).clusters (placedIn n b.blocks)) (hx : x ∈ k.members) : x ∈ placedIn n b.blocks :=
  (from_of_mem_clusters hk).sublist.subset hx

theorem mem_clusters_placedIn_iff {b : Bucket} {n : Nat} (hb : bs[n]? = some b) :
    k ∈ (placedGrouping s).clusters (placedIn n b.blocks) ↔
      k ∈ (placed bs).flatMap (placedGrouping s).clusters ∧ (siteOf k).bucket = n := by
  constructor
  case mp =>
    intro hk
    have hr := mem_placedIn_of_mem_members hk List.mem_cons_self
    exact ⟨List.mem_flatMap.mpr ⟨_, mem_placed_iff.mpr ⟨n, b, hb, rfl⟩, hk⟩, (mem_placedIn_iff.mp hr).left⟩
  case mpr =>
    rintro ⟨hk, rfl⟩
    have ⟨xs, hxs, hk⟩ := List.mem_flatMap.mp hk
    obtain ⟨i, b', hb', rfl⟩ := mem_placed_iff.mp hxs
    have hi : (siteOf k).bucket = i := (mem_placedIn_iff.mp (mem_placedIn_of_mem_members hk List.mem_cons_self)).left
    cases hi
    cases hb.symm.trans hb'
    exact hk

-- What each bucket's clusters leave behind is what the sites leave behind, since all that makes a difference stays
-- within the bucket.
theorem exhausted_clusters (s : Settings) (bs : List Bucket) :
    Exhausted s bs (((placed bs).flatMap (placedGrouping s).clusters).map siteOf) := by
  constructor
  case beside =>
    intro t ht j x y hx hy hlt hn hearlier
    have ⟨k, hk, hkt⟩ := List.mem_map.mp ht
    subst hkt
    have ⟨b, hb, hx⟩ := blockAt?_eq_some_iff.mp hx
    obtain ⟨_, hb', hy⟩ := blockAt?_eq_some_iff.mp hy
    cases hb.symm.trans hb'
    have hk := (mem_clusters_placedIn_iff hb).mpr ⟨hk, rfl⟩
    have hroot := (mem_placedIn_iff.mp (mem_placedIn_of_mem_members hk List.mem_cons_self)).right
    have hrx : k.root.1 = x := Option.some.inj (hroot.symm.trans (mem_placedIn_iff.mp hx).right)
    have he := exhausts_clusters (g := placedGrouping s) (pairwise_placedIn (siteOf k).bucket b.blocks)
    have hr := he.beside k hk _ hy hlt (fun hm => hn (mem_positions_siteOf hm)) ?_
    case refine_1 =>
      intro l hl hlt hm
      have ⟨hl, hb⟩ := (mem_clusters_placedIn_iff hb).mp hl
      exact hearlier _ (List.mem_map_of_mem hl) hb hlt (mem_positions_siteOf hm)
    refine hr.imp ?_ (hrx ▸ ·)
    rintro ⟨z, hz, hzj, hc⟩
    have hzp := mem_placedIn_of_mem_members hk hz
    have hzb : z.2.1 = (siteOf k).bucket := (mem_placedIn_iff.mp hzp).left
    exact ⟨z.2.2, mem_positions_siteOf hz, hzj, z.1, blockAt?_eq_some_iff.mpr ⟨b, hb, hzb ▸ hzp⟩, hc⟩
  case alone =>
    intro n i j x y hx hy hlt hnone
    have ⟨b, hb, hx⟩ := blockAt?_eq_some_iff.mp hx
    obtain ⟨_, hb', hy⟩ := blockAt?_eq_some_iff.mp hy
    cases hb.symm.trans hb'
    have he := exhausts_clusters (g := placedGrouping s) (pairwise_placedIn n b.blocks)
    refine he.alone _ hx _ hy hlt fun k hk => ?_
    have ⟨hk, hkn⟩ := (mem_clusters_placedIn_iff hb).mp hk
    have ⟨hi, hj⟩ := hnone _ (List.mem_map_of_mem hk) hkn
    exact ⟨fun hm => hi (mem_positions_siteOf hm), fun hm => hj (mem_positions_siteOf hm)⟩

-- Unless a comparison was refused, the groups leave nothing similar behind.
theorem exhausted_groups (h : (Bucket.groups (grouping s) bs c).2.comparisonsTruncated = false) :
    ∃ sites : List Site, List.Forall₂ (Group.StandsAt bs) sites (Bucket.groups (grouping s) bs c).1 ∧
      (sites.flatMap Site.places).Nodup ∧ Exhausted s bs sites := by
  refine ⟨(located s bs c).map siteOf, forall₂_standsAt s bs c, nodup_places s bs c, ?_⟩
  rw [located_of_not_truncated h]
  exact exhausted_clusters s bs

def crowdedBucket : Bucket :=
  let block (source : String) (first : UInt32) : Block := ⟨source, first, first + 4, ['x'], ['x']⟩
  ⟨['x'], [block "a" 1, block "a" 2, block "b" 1]⟩

-- The second window is left alone, because it overlaps the first.
theorem exhausted_groups_crowdedBucket :
    (Bucket.groups (grouping {}) [crowdedBucket] {}).1.map (·.members.map Block.first) = [[1, 1]] ∧
    ∃ sites : List Site, List.Forall₂ (Group.StandsAt [crowdedBucket]) sites
        (Bucket.groups (grouping {}) [crowdedBucket] {}).1 ∧
      (sites.flatMap Site.places).Nodup ∧ Exhausted {} [crowdedBucket] sites :=
  ⟨by decide +kernel, exhausted_groups (by decide +kernel)⟩

end Scan
end DuplicateBlocks
