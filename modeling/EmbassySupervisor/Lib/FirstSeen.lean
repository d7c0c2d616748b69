/-
# Who is seen first

Blocks of entries come one after the other. Each has a head and a body behind it, and the
tails of all blocks come last. An arrangement permutes the blocks, and the head and the body
within each.

Whether an entry of some kind stands before the first `a` may depend on the arrangement.
`mayFollow_iff` and `mayLead_iff` say what arrangements can bring about, and `settled_iff`
when they all come to the same.

Entries that share with their hubs one after the other depend on who comes first in just this
way (`foldl_share_of_linked`).
-/

import Mathlib.Data.List.Induction
import Mathlib.Data.List.Perm.Basic

namespace FirstSeen

variable {κ : Type*}

/-! ## What stands before the first occurrence -/

section Before

variable {s : κ → Prop} {a k : κ} {l r : List κ}

/-- An entry of the kind `s` stands before the first `a`, or there is no `a`. -/
def Before (s : κ → Prop) (a : κ) : List κ → Prop
  | [] => False
  | k :: l => k ≠ a ∧ (s k ∨ Before s a l)

theorem before_append_of_mem (ha : a ∈ l) : Before s a (l ++ r) ↔ Before s a l := by
  induction l with
  | nil => cases ha
  | cons k l ih =>
      by_cases hk : k = a
      · simp [Before, hk]
      · have hl : a ∈ l := (List.mem_cons.mp ha).resolve_left (Ne.symm hk)
        simp [Before, ih hl]

theorem before_append_of_notMem (ha : a ∉ l) :
    Before s a (l ++ r) ↔ (∃ k ∈ l, s k) ∨ Before s a r := by
  induction l with
  | nil => simp
  | cons k l ih =>
      have hk : k ≠ a := by
        rintro rfl
        exact ha List.mem_cons_self
      have hl : a ∉ l := fun h => ha (List.mem_cons_of_mem k h)
      simp [Before, hk, ih hl, or_assoc]

theorem before_of_notMem (ha : a ∉ l) : Before s a l ↔ ∃ k ∈ l, s k := by
  have h := before_append_of_notMem (s := s) (r := []) ha
  simpa [Before] using h

theorem Before.exists_mem (h : Before s a l) : ∃ k ∈ l, s k := by
  induction l with
  | nil => cases h
  | cons k l ih =>
      obtain ⟨-, hs | hl⟩ := h
      · exact ⟨k, List.mem_cons_self, hs⟩
      · obtain ⟨m, hm, hs⟩ := ih hl
        exact ⟨m, List.mem_cons_of_mem k hm, hs⟩

theorem Before.append (h : Before s a l) (r : List κ) : Before s a (l ++ r) := by
  by_cases ha : a ∈ l
  · exact (before_append_of_mem ha).mpr h
  · exact (before_append_of_notMem ha).mpr (.inl h.exists_mem)

theorem not_before_append_cons (h : ∀ k ∈ l, ¬s k) (r : List κ) :
    ¬Before s a (l ++ a :: r) := by
  intro hbefore
  have hnone : ¬∃ k ∈ l, s k := fun ⟨k, hk, hs⟩ => h k hk hs
  by_cases ha : a ∈ l
  · exact hnone ((before_append_of_mem ha).mp hbefore).exists_mem
  · rcases (before_append_of_notMem ha).mp hbefore with hl | hr
    · exact hnone hl
    · exact hr.1 rfl

variable {β : Type*} {f : β → List κ} {bs : List β}

theorem Before.exists_of_flatMap (h : Before s a (bs.flatMap f)) : ∃ b ∈ bs, Before s a (f b) := by
  induction bs with
  | nil => cases h
  | cons b bs ih =>
      rw [List.flatMap_cons] at h
      by_cases ha : a ∈ f b
      · exact ⟨b, List.mem_cons_self, (before_append_of_mem ha).mp h⟩
      · rcases (before_append_of_notMem ha).mp h with hb | hrest
        · exact ⟨b, List.mem_cons_self, (before_of_notMem ha).mpr hb⟩
        · obtain ⟨c, hc, hbefore⟩ := ih hrest
          exact ⟨c, List.mem_cons_of_mem b hc, hbefore⟩

theorem exists_not_before_of_flatMap (ha : a ∈ bs.flatMap f) (h : ¬Before s a (bs.flatMap f)) :
    ∃ b ∈ bs, a ∈ f b ∧ ¬Before s a (f b) := by
  induction bs with
  | nil => cases ha
  | cons b bs ih =>
      rw [List.flatMap_cons] at ha h
      by_cases hb : a ∈ f b
      · exact ⟨b, List.mem_cons_self, hb, fun hbefore => h (hbefore.append _)⟩
      · have hrest : a ∈ bs.flatMap f := (List.mem_append.mp ha).resolve_left hb
        have hnot : ¬Before s a (bs.flatMap f) := fun hbefore =>
          h ((before_append_of_notMem hb).mpr (.inr hbefore))
        obtain ⟨c, hc, hlead⟩ := ih hrest hnot
        exact ⟨c, List.mem_cons_of_mem b hc, hlead⟩

end Before

/-! ## Each entry once -/

section Firsts

variable [DecidableEq κ] {s : κ → Prop} {a : κ} {l : List κ}

def addNew (seen : List κ) (k : κ) : List κ := if k ∈ seen then seen else seen ++ [k]

/-- Every entry once, where it is first seen. -/
def firsts (l : List κ) : List κ := l.foldl addNew []

theorem firsts_concat (l : List κ) (k : κ) : firsts (l ++ [k]) = addNew (firsts l) k := by
  simp [firsts]

@[simp]
theorem mem_firsts : a ∈ firsts l ↔ a ∈ l := by
  induction l using List.reverseRecOn with
  | nil => rfl
  | append_singleton l k ih =>
      rw [firsts_concat, addNew]
      split
      · rename_i hk
        have hkl : a = k → a ∈ firsts l := fun h => h ▸ hk
        simpa [← ih] using hkl
      · simp [ih]

theorem nodup_firsts (l : List κ) : (firsts l).Nodup := by
  induction l using List.reverseRecOn with
  | nil => exact List.nodup_nil
  | append_singleton l k ih =>
      rw [firsts_concat, addNew]
      split
      · exact ih
      · rename_i hk
        refine List.nodup_append.mpr ⟨ih, List.pairwise_singleton _ k, fun m hm m' hm' heq => ?_⟩
        exact hk (List.mem_singleton.mp hm' ▸ heq ▸ hm)

theorem before_firsts : Before s a (firsts l) ↔ Before s a l := by
  induction l using List.reverseRecOn with
  | nil => rfl
  | append_singleton l k ih =>
      rw [firsts_concat, addNew]
      split
      · rename_i hk
        rw [ih]
        by_cases ha : a ∈ l
        · rw [before_append_of_mem ha]
        · rw [before_of_notMem ha, before_append_of_notMem ha]
          have hkl : k ≠ a ∧ s k → ∃ m ∈ l, s m := fun h => ⟨k, mem_firsts.mp hk, h.2⟩
          simpa [Before] using hkl
      · by_cases ha : a ∈ l
        · rw [before_append_of_mem ha, before_append_of_mem (mem_firsts.mpr ha), ih]
        · have ha' : a ∉ firsts l := fun h => ha (mem_firsts.mp h)
          rw [before_append_of_notMem ha, before_append_of_notMem ha']
          simp

end Firsts

/-! ## Entries that share what their hub has -/

section Hubs

variable {hub : κ → Option κ}

/-- An entry with a hub and its hub come to have what either has. -/
def share (hub : κ → Option κ) (has : κ → Prop) (k x : κ) : Prop :=
  has x ∨ ∃ w, hub k = some w ∧ (x = w ∧ has k ∨ x = k ∧ has w)

/-- No hub has a hub of its own. -/
def Flat (hub : κ → Option κ) : Prop := ∀ k w, hub k = some w → hub w = none

variable {has : κ → Prop} {k w x : κ}

theorem share_of_hub (hx : hub x = none) :
    share hub has k x ↔ has x ∨ hub k = some x ∧ has k := by
  refine or_congr_right ⟨?_, fun ⟨hk, h⟩ => ⟨x, hk, .inl ⟨rfl, h⟩⟩⟩
  rintro ⟨w, hk, ⟨rfl, h⟩ | ⟨rfl, -⟩⟩
  · exact ⟨hk, h⟩
  · cases hx.symm.trans hk

theorem share_of_linked (hflat : Flat hub) (hx : hub x = some w) :
    share hub has k x ↔ has x ∨ x = k ∧ has w := by
  refine or_congr_right ⟨?_, fun ⟨hk, h⟩ => ⟨w, hk ▸ hx, .inr ⟨hk, h⟩⟩⟩
  rintro ⟨w', hk, ⟨rfl, -⟩ | ⟨rfl, h⟩⟩
  · cases hx.symm.trans (hflat k x hk)
  · cases hx.symm.trans hk
    exact ⟨rfl, h⟩

/-- A hub ends up with what it has and what its entries have. -/
theorem foldl_share_of_hub (hflat : Flat hub) (hx : hub x = none) (order : List κ) :
    order.foldl (share hub) has x ↔ has x ∨ ∃ k ∈ order, hub k = some x ∧ has k := by
  induction order generalizing has with
  | nil => simp
  | cons m order ih =>
      rw [List.foldl_cons, ih, share_of_hub hx]
      constructor
      · rintro ((h | ⟨hm, h⟩) | ⟨k, hk, hkx, h⟩)
        · exact .inl h
        · exact .inr ⟨m, List.mem_cons_self, hm, h⟩
        · rcases (share_of_linked hflat hkx).mp h with h | ⟨-, h⟩
          · exact .inr ⟨k, List.mem_cons_of_mem m hk, hkx, h⟩
          · exact .inl h
      · rintro (h | ⟨k, hk, hkx, h⟩)
        · exact .inl (.inl h)
        · rcases List.mem_cons.mp hk with rfl | hk
          · exact .inl (.inr ⟨hkx, h⟩)
          · exact .inr ⟨k, hk, hkx, (share_of_linked hflat hkx).mpr (.inl h)⟩

theorem foldl_share_of_notMem (hflat : Flat hub) (hx : hub x = some w) {order : List κ}
    (hmem : x ∉ order) : order.foldl (share hub) has x ↔ has x := by
  induction order generalizing has with
  | nil => rfl
  | cons m order ih =>
      have hxm : x ≠ m := by
        rintro rfl
        exact hmem List.mem_cons_self
      have hrest : x ∉ order := fun h => hmem (List.mem_cons_of_mem m h)
      rw [List.foldl_cons, ih hrest, share_of_linked hflat hx]
      simp [hxm]

/-- An entry also ends up with what those before it have that share its hub. -/
theorem foldl_share_of_linked (hflat : Flat hub) (hx : hub x = some w) {order : List κ}
    (hmem : x ∈ order) (hnodup : order.Nodup) :
    order.foldl (share hub) has x ↔
      has x ∨ has w ∨ Before (fun k => hub k = some w ∧ has k) x order := by
  induction order generalizing has with
  | nil => cases hmem
  | cons m order ih =>
      obtain ⟨hm, hrest⟩ := List.nodup_cons.mp hnodup
      rw [List.foldl_cons]
      by_cases hxm : x = m
      · subst hxm
        rw [foldl_share_of_notMem hflat hx hm, share_of_linked hflat hx]
        simp [Before]
      · have hmem : x ∈ order := (List.mem_cons.mp hmem).resolve_left hxm
        rw [ih hmem hrest, share_of_linked hflat hx, share_of_hub (hflat x w hx)]
        by_cases hw : has w
        · simp [hw]
        · have hkind : (fun k => hub k = some w ∧ share hub has m k) =
              fun k => hub k = some w ∧ has k := by
            funext k
            refine propext (and_congr_right fun hk => ?_)
            rw [share_of_linked hflat hk]
            simp [hw]
          rw [hkind]
          simp [Before, hxm, Ne.symm hxm, hw]

end Hubs

/-! ## Blocks -/

structure Block (κ : Type*) where
  head : List κ
  body : List κ
  tail : List κ

def Block.front (b : Block κ) : List κ := b.head ++ b.body

/-- All entries, in the order in which they are seen. -/
def entries (blocks : List (Block κ)) : List κ :=
  blocks.flatMap Block.front ++ blocks.flatMap Block.tail

structure Block.Shuffled (b b' : Block κ) : Prop where
  head : b.head.Perm b'.head
  body : b.body.Perm b'.body
  tail : b.tail = b'.tail

namespace Block.Shuffled

variable {b b' : Block κ}

theorem refl (b : Block κ) : b.Shuffled b := ⟨.refl _, .refl _, rfl⟩

theorem mem_front (h : b.Shuffled b') (k : κ) : k ∈ b.front ↔ k ∈ b'.front := by
  simp only [front, List.mem_append, h.head.mem_iff, h.body.mem_iff]

end Block.Shuffled

/-- Blocks are put in another order, and shuffled. -/
def Arranged (blocks blocks' : List (Block κ)) : Prop :=
  ∃ mid, blocks.Perm mid ∧ List.Forall₂ Block.Shuffled mid blocks'

namespace Arranged

variable {blocks blocks' : List (Block κ)}

theorem refl (blocks : List (Block κ)) : Arranged blocks blocks :=
  ⟨blocks, .refl _, List.forall₂_same.mpr fun b _ => .refl b⟩

theorem exists_before (h : Arranged blocks blocks') {b' : Block κ} (hb : b' ∈ blocks') :
    ∃ b ∈ blocks, b.Shuffled b' := by
  obtain ⟨mid, hperm, hall⟩ := h
  obtain ⟨n, hn, rfl⟩ := List.mem_iff_getElem.mp hb
  have hn' : n < mid.length := hall.length_eq ▸ hn
  exact ⟨mid[n], hperm.mem_iff.mpr (List.getElem_mem hn'), hall.get hn' hn⟩

theorem exists_after (h : Arranged blocks blocks') {b : Block κ} (hb : b ∈ blocks) :
    ∃ b' ∈ blocks', b.Shuffled b' := by
  obtain ⟨mid, hperm, hall⟩ := h
  obtain ⟨n, hn, rfl⟩ := List.mem_iff_getElem.mp (hperm.mem_iff.mp hb)
  have hn' : n < blocks'.length := hall.length_eq ▸ hn
  exact ⟨blocks'[n], List.getElem_mem hn', hall.get hn hn'⟩

theorem mem_entries (h : Arranged blocks blocks') (k : κ) :
    k ∈ entries blocks ↔ k ∈ entries blocks' := by
  simp only [entries, List.mem_append, List.mem_flatMap]
  constructor
  · rintro (⟨b, hb, hk⟩ | ⟨b, hb, hk⟩)
    · obtain ⟨b', hb', hsh⟩ := h.exists_after hb
      exact .inl ⟨b', hb', (hsh.mem_front k).mp hk⟩
    · obtain ⟨b', hb', hsh⟩ := h.exists_after hb
      exact .inr ⟨b', hb', hsh.tail ▸ hk⟩
  · rintro (⟨b', hb', hk⟩ | ⟨b', hb', hk⟩)
    · obtain ⟨b, hb, hsh⟩ := h.exists_before hb'
      exact .inl ⟨b, hb, (hsh.mem_front k).mpr hk⟩
    · obtain ⟨b, hb, hsh⟩ := h.exists_before hb'
      exact .inr ⟨b, hb, hsh.tail ▸ hk⟩

end Arranged

section Items

variable {ι : Type*} {f : ι → Block κ} {r : ι → ι → Prop} {items items' mid : List ι}

/-- Items that are put in another order and shuffled have their blocks arranged. -/
theorem Arranged.of_items (hr : ∀ i i', r i i' → (f i).Shuffled (f i')) (hperm : items.Perm mid)
    (hall : List.Forall₂ r mid items') : Arranged (items.map f) (items'.map f) :=
  ⟨mid.map f, hperm.map f, List.forall₂_map_left_iff.mpr (List.forall₂_map_right_iff.mpr
    (hall.imp hr))⟩

theorem exists_perm_of_map {α β : Type*} {f : α → β} {l : List α} {r : List β}
    (h : (l.map f).Perm r) : ∃ l', l.Perm l' ∧ l'.map f = r := by
  have hcomp : Relation.Comp (· = List.map f ·) List.Perm r l := by
    rw [List.eq_map_comp_perm]
    exact h.symm
  obtain ⟨l', hl', hperm⟩ := hcomp
  exact ⟨l', hperm.symm, hl'.symm⟩

/-- Every arrangement of the blocks comes from one of the items. -/
theorem Arranged.exists_items {blocks' : List (Block κ)}
    (hr : ∀ i b', (f i).Shuffled b' → ∃ i', r i i' ∧ f i' = b')
    (h : Arranged (items.map f) blocks') :
    ∃ mid items', items.Perm mid ∧ List.Forall₂ r mid items' ∧ items'.map f = blocks' := by
  obtain ⟨mid', hperm, hall⟩ := h
  obtain ⟨mid, hmid, rfl⟩ := exists_perm_of_map hperm
  have hlift : ∀ {mid : List ι} {blocks' : List (Block κ)},
      List.Forall₂ Block.Shuffled (mid.map f) blocks' →
        ∃ items', List.Forall₂ r mid items' ∧ items'.map f = blocks' := by
    intro mid
    induction mid with
    | nil =>
        intro _ hall
        cases hall
        exact ⟨[], .nil, rfl⟩
    | cons i mid ih =>
        intro _ hall
        obtain - | ⟨hhead, htail⟩ := hall
        obtain ⟨i', hi, rfl⟩ := hr i _ hhead
        obtain ⟨items', hrest, rfl⟩ := ih htail
        exact ⟨i' :: items', .cons hi hrest, rfl⟩
  obtain ⟨items', hrest, hblocks⟩ := hlift hall
  exact ⟨mid, items', hmid, hrest, hblocks⟩

end Items

theorem exists_first {blocks : List (Block κ)} {b b' : Block κ} (hb : b ∈ blocks)
    (h : b.Shuffled b') :
    ∃ rest, Arranged blocks (b' :: rest) ∧ ∀ c ∈ rest, c ∈ blocks := by
  obtain ⟨l, r, rfl⟩ := List.append_of_mem hb
  have hall : List.Forall₂ Block.Shuffled (l ++ r) (l ++ r) :=
    List.forall₂_same.mpr fun c _ => .refl c
  refine ⟨l ++ r, ⟨b :: (l ++ r), List.perm_middle, .cons h hall⟩, fun c hc => ?_⟩
  rcases List.mem_append.mp hc with hc | hc
  · exact List.mem_append_left _ hc
  · exact List.mem_append_right _ (List.mem_cons_of_mem b hc)

theorem exists_perm_cons {l : List κ} {k : κ} (hk : k ∈ l) : ∃ l', l.Perm (k :: l') := by
  obtain ⟨p, q, rfl⟩ := List.append_of_mem hk
  exact ⟨p ++ q, List.perm_middle⟩

/-! ## What an arrangement can bring about -/

section Arrange

/-- Some arrangement has an entry of the kind before the first `a`. -/
inductive MayFollow (s : κ → Prop) (a : κ) (blocks : List (Block κ)) : Prop
  | head {b : Block κ} {k : κ} (hb : b ∈ blocks) (hk : k ∈ b.head) (hs : s k)
  | body {b : Block κ} {k : κ} (hb : b ∈ blocks) (ha : a ∉ b.head) (hk : k ∈ b.body) (hs : s k)
  | tail {b : Block κ} (hfronts : ∀ c ∈ blocks, a ∉ c.front) (hb : b ∈ blocks)
      (h : Before s a b.tail)

/-- Some arrangement has the first `a` before every entry of the kind. -/
inductive MayLead (s : κ → Prop) (a : κ) (blocks : List (Block κ)) : Prop
  | head {b : Block κ} (hb : b ∈ blocks) (ha : a ∈ b.head)
  | body {b : Block κ} (hb : b ∈ blocks) (hhead : ∀ k ∈ b.head, ¬s k) (ha : a ∈ b.body)
  | tail {b : Block κ} (hfronts : ∀ c ∈ blocks, ∀ k ∈ c.front, k ≠ a ∧ ¬s k) (hb : b ∈ blocks)
      (ha : a ∈ b.tail) (h : ¬Before s a b.tail)

variable {s : κ → Prop} {a : κ} {blocks blocks' : List (Block κ)}

theorem mayFollow_of_before (h : Before s a (entries blocks)) : MayFollow s a blocks := by
  by_cases ha : a ∈ blocks.flatMap Block.front
  · obtain ⟨b, hb, hfront⟩ := ((before_append_of_mem ha).mp h).exists_of_flatMap
    by_cases hhead : a ∈ b.head
    · obtain ⟨k, hk, hs⟩ := ((before_append_of_mem hhead).mp hfront).exists_mem
      exact .head hb hk hs
    · rcases (before_append_of_notMem hhead).mp hfront with ⟨k, hk, hs⟩ | hbody
      · exact .head hb hk hs
      · obtain ⟨k, hk, hs⟩ := hbody.exists_mem
        exact .body hb hhead hk hs
  · have hfronts : ∀ c ∈ blocks, a ∉ c.front := fun c hc h =>
      ha (List.mem_flatMap.mpr ⟨c, hc, h⟩)
    rcases (before_append_of_notMem ha).mp h with ⟨k, hk, hs⟩ | htail
    · obtain ⟨b, hb, hk⟩ := List.mem_flatMap.mp hk
      rcases List.mem_append.mp hk with hk | hk
      · exact .head hb hk hs
      · exact .body hb (fun h => hfronts b hb (List.mem_append_left _ h)) hk hs
    · obtain ⟨b, hb, hbefore⟩ := htail.exists_of_flatMap
      exact .tail hfronts hb hbefore

theorem mayLead_of_not_before (hmem : a ∈ entries blocks) (h : ¬Before s a (entries blocks)) :
    MayLead s a blocks := by
  by_cases ha : a ∈ blocks.flatMap Block.front
  · have hfront : ¬Before s a (blocks.flatMap Block.front) := fun hbefore => h (hbefore.append _)
    obtain ⟨b, hb, hab, hlead⟩ := exists_not_before_of_flatMap ha hfront
    by_cases hhead : a ∈ b.head
    · exact .head hb hhead
    · have hbody : a ∈ b.body := (List.mem_append.mp hab).resolve_left hhead
      exact .body hb (fun k hk hs => hlead ((before_append_of_notMem hhead).mpr
        (.inl ⟨k, hk, hs⟩))) hbody
  · have htails : a ∈ blocks.flatMap Block.tail := (List.mem_append.mp hmem).resolve_left ha
    have hlead : ¬Before s a (blocks.flatMap Block.tail) := fun hbefore =>
      h ((before_append_of_notMem ha).mpr (.inr hbefore))
    obtain ⟨b, hb, hab, hlead⟩ := exists_not_before_of_flatMap htails hlead
    refine .tail (fun c hc k hk => ⟨?_, fun hs => ?_⟩) hb hab hlead
    · rintro rfl
      exact ha (List.mem_flatMap.mpr ⟨c, hc, hk⟩)
    · exact h ((before_append_of_notMem ha).mpr
        (.inl ⟨k, List.mem_flatMap.mpr ⟨c, hc, hk⟩, hs⟩))

theorem MayFollow.of_arranged (h : Arranged blocks blocks') (hfollow : MayFollow s a blocks') :
    MayFollow s a blocks := by
  cases hfollow with
  | head hb hk hs =>
      obtain ⟨b, hb, hsh⟩ := h.exists_before hb
      exact .head hb (hsh.head.mem_iff.mpr hk) hs
  | body hb ha hk hs =>
      obtain ⟨b, hb, hsh⟩ := h.exists_before hb
      exact .body hb (fun h => ha (hsh.head.mem_iff.mp h)) (hsh.body.mem_iff.mpr hk) hs
  | tail hfronts hb hbefore =>
      obtain ⟨b, hb, hsh⟩ := h.exists_before hb
      refine .tail (fun c hc hac => ?_) hb (hsh.tail ▸ hbefore)
      obtain ⟨c', hc', hsh'⟩ := h.exists_after hc
      exact hfronts c' hc' ((hsh'.mem_front a).mp hac)

theorem MayLead.of_arranged (h : Arranged blocks blocks') (hlead : MayLead s a blocks') :
    MayLead s a blocks := by
  cases hlead with
  | head hb ha =>
      obtain ⟨b, hb, hsh⟩ := h.exists_before hb
      exact .head hb (hsh.head.mem_iff.mpr ha)
  | body hb hhead ha =>
      obtain ⟨b, hb, hsh⟩ := h.exists_before hb
      exact .body hb (fun k hk => hhead k (hsh.head.mem_iff.mp hk)) (hsh.body.mem_iff.mpr ha)
  | tail hfronts hb ha hnot =>
      obtain ⟨b, hb, hsh⟩ := h.exists_before hb
      refine .tail (fun c hc k hk => ?_) hb (hsh.tail ▸ ha) (hsh.tail ▸ hnot)
      obtain ⟨c', hc', hsh'⟩ := h.exists_after hc
      exact hfronts c' hc' k ((hsh'.mem_front k).mp hk)

theorem entries_cons (b : Block κ) (rest : List (Block κ)) :
    entries (b :: rest) = b.head ++ (b.body ++ (rest.flatMap Block.front ++
      (b.tail ++ rest.flatMap Block.tail))) := by
  simp [entries, Block.front]

/-- The entries of an arrangement that leaves the tails in question behind fronts without `a`. -/
theorem before_entries_cons {b : Block κ} {rest : List (Block κ)}
    (hfronts : ∀ c ∈ b :: rest, a ∉ c.front) :
    Before s a (entries (b :: rest)) ↔
      (∃ k ∈ (b :: rest).flatMap Block.front, s k) ∨
        Before s a (b.tail ++ rest.flatMap Block.tail) := by
  have ha : a ∉ (b :: rest).flatMap Block.front := fun h => by
    obtain ⟨c, hc, hac⟩ := List.mem_flatMap.mp h
    exact hfronts c hc hac
  exact before_append_of_notMem ha

/-- The block in question is put first, and the entry first within its part. -/
theorem MayFollow.exists_arranged (ha : ¬s a) (h : MayFollow s a blocks) :
    ∃ blocks', Arranged blocks blocks' ∧ Before s a (entries blocks') := by
  have hne {k : κ} (hs : s k) : k ≠ a := by
    rintro rfl
    exact ha hs
  cases h with
  | @head b k hb hk hs =>
      obtain ⟨l, hperm⟩ := exists_perm_cons hk
      have hsh : b.Shuffled { b with head := k :: l } := ⟨hperm, .refl _, rfl⟩
      obtain ⟨rest, harr, -⟩ := exists_first hb hsh
      exact ⟨_, harr, by rw [entries_cons]; exact ⟨hne hs, .inl hs⟩⟩
  | @body b k hb hhead hk hs =>
      obtain ⟨l, hperm⟩ := exists_perm_cons hk
      have hsh : b.Shuffled { b with body := k :: l } := ⟨.refl _, hperm, rfl⟩
      obtain ⟨rest, harr, -⟩ := exists_first hb hsh
      refine ⟨_, harr, ?_⟩
      rw [entries_cons]
      exact (before_append_of_notMem hhead).mpr (.inr ⟨hne hs, .inl hs⟩)
  | @tail b hfronts hb hbefore =>
      obtain ⟨rest, harr, hrest⟩ := exists_first hb (.refl b)
      have hfronts' : ∀ c ∈ b :: rest, a ∉ c.front := by
        intro c hc
        rcases List.mem_cons.mp hc with rfl | hc
        · exact hfronts c hb
        · exact hfronts c (hrest c hc)
      exact ⟨_, harr, (before_entries_cons hfronts').mpr (.inr (hbefore.append _))⟩

theorem MayLead.exists_arranged (h : MayLead s a blocks) :
    ∃ blocks', Arranged blocks blocks' ∧ ¬Before s a (entries blocks') := by
  cases h with
  | @head b hb ha =>
      obtain ⟨l, hperm⟩ := exists_perm_cons ha
      have hsh : b.Shuffled { b with head := a :: l } := ⟨hperm, .refl _, rfl⟩
      obtain ⟨rest, harr, -⟩ := exists_first hb hsh
      refine ⟨_, harr, ?_⟩
      rw [entries_cons]
      exact fun hbefore => hbefore.1 rfl
  | @body b hb hhead ha =>
      obtain ⟨l, hperm⟩ := exists_perm_cons ha
      have hsh : b.Shuffled { b with body := a :: l } := ⟨.refl _, hperm, rfl⟩
      obtain ⟨rest, harr, -⟩ := exists_first hb hsh
      refine ⟨_, harr, ?_⟩
      rw [entries_cons]
      exact not_before_append_cons hhead _
  | @tail b hfronts hb ha hnot =>
      obtain ⟨rest, harr, hrest⟩ := exists_first hb (.refl b)
      have hfronts' : ∀ c ∈ b :: rest, ∀ k ∈ c.front, k ≠ a ∧ ¬s k := by
        intro c hc
        rcases List.mem_cons.mp hc with rfl | hc
        · exact hfronts c hb
        · exact hfronts c (hrest c hc)
      refine ⟨_, harr, fun hbefore => ?_⟩
      rcases (before_entries_cons fun c hc hac => (hfronts' c hc a hac).1 rfl).mp hbefore with
        ⟨k, hk, hs⟩ | htail
      · obtain ⟨c, hc, hk⟩ := List.mem_flatMap.mp hk
        exact (hfronts' c hc k hk).2 hs
      · exact hnot ((before_append_of_mem ha).mp htail)

theorem mayFollow_iff (ha : ¬s a) :
    (∃ blocks', Arranged blocks blocks' ∧ Before s a (entries blocks')) ↔
      MayFollow s a blocks := by
  constructor
  · rintro ⟨blocks', harr, hbefore⟩
    exact (mayFollow_of_before hbefore).of_arranged harr
  · exact fun h => h.exists_arranged ha

theorem mayLead_iff (ha : a ∈ entries blocks) :
    (∃ blocks', Arranged blocks blocks' ∧ ¬Before s a (entries blocks')) ↔
      MayLead s a blocks := by
  constructor
  · rintro ⟨blocks', harr, hnot⟩
    exact (mayLead_of_not_before ((harr.mem_entries a).mp ha) hnot).of_arranged harr
  · exact MayLead.exists_arranged

/-- All arrangements come to the same where they cannot do the one, or cannot do the other. -/
theorem settled_iff (hs : ¬s a) (ha : a ∈ entries blocks) :
    (∀ blocks', Arranged blocks blocks' →
      (Before s a (entries blocks) ↔ Before s a (entries blocks'))) ↔
      ¬(MayFollow s a blocks ∧ MayLead s a blocks) := by
  constructor
  · rintro hsame ⟨hfollow, hlead⟩
    obtain ⟨follow, harr, hbefore⟩ := (mayFollow_iff hs).mpr hfollow
    obtain ⟨lead, harr', hnot⟩ := (mayLead_iff ha).mpr hlead
    exact hnot ((hsame lead harr').mp ((hsame follow harr).mpr hbefore))
  · intro hnot blocks' harr
    by_cases h : Before s a (entries blocks) <;> by_cases h' : Before s a (entries blocks')
    · exact iff_of_true h h'
    · exact absurd ⟨mayFollow_of_before h, (mayLead_iff ha).mp ⟨blocks', harr, h'⟩⟩ hnot
    · exact absurd ⟨(mayFollow_iff hs).mp ⟨blocks', harr, h'⟩, mayLead_of_not_before ha h⟩ hnot
    · exact iff_of_false h h'

end Arrange

end FirstSeen
