import Mathlib.Data.Finset.Max
import Mathlib.Data.List.Sort

/-!
# Keeping the greatest elements

`greatest k s` are the `k` greatest elements of `s`.  A cache that takes in every element offered to
it and throws out the least one when it has more than `k` holds the `k` greatest of all that it has
been offered, in whatever order they came: `greatest_insert` is the step of that argument, and
`greatest_of_card_eq_succ` says what throwing out the least one does.
-/

namespace BtcServer.Lib

variable {α : Type*} [LinearOrder α] {k : Nat} {s t : Finset α} {a b : α}

def above (s : Finset α) (a : α) : Finset α := s.filter (a < ·)

def greatest (k : Nat) (s : Finset α) : Finset α := s.filter fun a => (above s a).card < k

theorem mem_above : b ∈ above s a ↔ b ∈ s ∧ a < b := Finset.mem_filter

theorem mem_greatest : a ∈ greatest k s ↔ a ∈ s ∧ (above s a).card < k := Finset.mem_filter

theorem greatest_subset (k : Nat) (s : Finset α) : greatest k s ⊆ s := Finset.filter_subset ..

theorem above_mono (h : s ⊆ t) (a : α) : above s a ⊆ above t a := Finset.filter_subset_filter _ h

theorem above_insert_of_le (h : b ≤ a) : above (insert b s) a = above s a := by
  unfold above
  rw [Finset.filter_insert, if_neg h.not_gt]

theorem greatest_insert_of_lt (h : ∀ b ∈ s, a < b) :
    greatest k (insert a s) = if s.card < k then insert a (greatest k s) else greatest k s := by
  have ha : above (insert a s) a = s := by
    rw [above_insert_of_le (le_refl a)]
    exact Finset.filter_true_of_mem h
  have hs : (insert a s).filter (fun b => (above (insert a s) b).card < k) =
      if s.card < k then insert a (s.filter fun b => (above (insert a s) b).card < k)
      else s.filter fun b => (above (insert a s) b).card < k := by
    rw [Finset.filter_insert, ha]
  have hrest : (s.filter fun b => (above (insert a s) b).card < k) = greatest k s := by
    apply Finset.filter_congr
    intro b hb
    rw [above_insert_of_le (h b hb).le]
  unfold greatest at hrest ⊢
  rw [hs, hrest]

theorem card_greatest (k : Nat) (s : Finset α) : (greatest k s).card = min k s.card := by
  induction s using Finset.induction_on_min with
  | empty => exact (Nat.min_zero k).symm
  | insert a s h ih =>
      have hnotMem : a ∉ s := fun ha => lt_irrefl a (h a ha)
      rw [greatest_insert_of_lt h, Finset.card_insert_of_notMem hnotMem]
      split_ifs with hlt
      · rw [Finset.card_insert_of_notMem fun ha => hnotMem (greatest_subset k s ha), ih]
        omega
      · rw [ih]
        omega

theorem greatest_of_card_le (h : s.card ≤ k) : greatest k s = s := by
  apply Finset.eq_of_subset_of_card_le (greatest_subset k s)
  rw [card_greatest, Nat.min_eq_right h]

theorem greatest_of_card_eq_succ (h : s.card = k + 1) (ha : a ∈ s) (hleast : ∀ b ∈ s, a ≤ b) :
    greatest k s = s.erase a := by
  have hcard : (s.erase a).card = k := by rw [Finset.card_erase_of_mem ha, h, Nat.add_sub_cancel]
  have hlt : ∀ b ∈ s.erase a, a < b := fun b hb =>
    lt_of_le_of_ne (hleast b (Finset.mem_of_mem_erase hb)) (Finset.ne_of_mem_erase hb).symm
  rw [← Finset.insert_erase ha, greatest_insert_of_lt hlt, if_neg (by omega),
    Finset.insert_erase ha]
  exact greatest_of_card_le hcard.le

theorem card_above_greatest (k : Nat) (s : Finset α) (a : α) :
    (above (greatest k s) a).card = min k (above s a).card := by
  rw [← card_greatest]
  congr 1
  ext b
  have habove (hab : a < b) : above (above s a) b = above s b := by
    ext c
    rw [mem_above, mem_above, mem_above]
    exact ⟨fun h => ⟨h.1.1, h.2⟩, fun h => ⟨⟨h.1, hab.trans h.2⟩, h.2⟩⟩
  rw [mem_above, mem_greatest, mem_greatest, mem_above]
  constructor
  · rintro ⟨⟨hb, hcard⟩, hab⟩
    exact ⟨⟨hb, hab⟩, by rwa [habove hab]⟩
  · rintro ⟨⟨hb, hab⟩, hcard⟩
    exact ⟨⟨hb, by rwa [habove hab] at hcard⟩, hab⟩

/-- It is enough to keep the `k` greatest elements to know the `k` greatest of one more. -/
theorem greatest_insert (k : Nat) (s : Finset α) (a : α) :
    greatest k (insert a (greatest k s)) = greatest k (insert a s) := by
  have hsubset : insert a (greatest k s) ⊆ insert a s :=
    Finset.insert_subset_insert a (greatest_subset k s)
  have hcard (b : α) : (above (insert a (greatest k s)) b).card < k ↔
      (above (insert a s) b).card < k := by
    constructor
    · intro h
      have hkept : (above (greatest k s) b).card < k :=
        (Finset.card_le_card (above_mono (Finset.subset_insert a _) b)).trans_lt h
      rw [card_above_greatest] at hkept
      have hsame : above (greatest k s) b = above s b := by
        apply Finset.eq_of_subset_of_card_le (above_mono (greatest_subset k s) b)
        rw [card_above_greatest]
        omega
      have hinsert (t : Finset α) :
          above (insert a t) b = if b < a then insert a (above t b) else above t b :=
        Finset.filter_insert ..
      rwa [hinsert, ← hsame, ← hinsert]
    · exact (Finset.card_le_card (above_mono hsubset b)).trans_lt
  ext b
  rw [mem_greatest, mem_greatest, hcard]
  constructor
  · rintro ⟨hb, hlt⟩
    exact ⟨hsubset hb, hlt⟩
  · rintro ⟨hb, hlt⟩
    refine ⟨?_, hlt⟩
    rcases Finset.mem_insert.mp hb with rfl | hs
    · exact Finset.mem_insert_self ..
    · have hle := Finset.card_le_card (above_mono (Finset.subset_insert a s) b)
      exact Finset.mem_insert_of_mem (mem_greatest.mpr ⟨hs, hle.trans_lt hlt⟩)

/-- What is not among the `k` greatest does not come back. -/
theorem mem_greatest_of_insert (h : b ∈ greatest k (insert a s)) (hb : b ∈ s) :
    b ∈ greatest k s := by
  have hle := Finset.card_le_card (above_mono (Finset.subset_insert a s) b)
  exact mem_greatest.mpr ⟨hb, hle.trans_lt (mem_greatest.mp h).2⟩

/-! ## In a sorted list -/

section Sorted

variable {l : List α}

/-- What the cache holds when it has taken `a` into `l`. -/
def keep (k : Nat) (l : List α) (a : α) : List α :=
  if a ∈ l then l
  else if k < (l.orderedInsert (· ≤ ·) a).length then (l.orderedInsert (· ≤ ·) a).tail
  else l.orderedInsert (· ≤ ·) a

theorem toFinset_orderedInsert (l : List α) (a : α) :
    (l.orderedInsert (· ≤ ·) a).toFinset = insert a l.toFinset := by
  rw [List.toFinset_eq_of_perm _ _ (List.perm_orderedInsert _ a l), List.toFinset_cons]

theorem sorted_orderedInsert (hl : l.Pairwise (· < ·)) (ha : a ∉ l) :
    (l.orderedInsert (· ≤ ·) a).Pairwise (· < ·) := by
  have hnodup : (l.orderedInsert (· ≤ ·) a).Nodup :=
    (List.perm_orderedInsert _ a l).nodup_iff.mpr
      (List.nodup_cons.mpr ⟨ha, hl.imp fun h => h.ne⟩)
  have hle := (hl.imp fun h => h.le).orderedInsert a
  exact hle.imp₂ (fun _ _ hle hne => lt_of_le_of_ne hle hne) hnodup

theorem sorted_keep (hl : l.Pairwise (· < ·)) (k : Nat) (a : α) :
    (keep k l a).Pairwise (· < ·) := by
  unfold keep
  split_ifs with ha hlong
  · exact hl
  · exact (sorted_orderedInsert hl ha).tail
  · exact sorted_orderedInsert hl ha

theorem toFinset_keep (hl : l.Pairwise (· < ·)) (hs : l.toFinset = greatest k s) (a : α) :
    (keep k l a).toFinset = greatest k (insert a s) := by
  have hcard : l.length = min k s.card := by
    rw [← card_greatest, ← hs, List.toFinset_card_of_nodup (hl.imp fun h => h.ne)]
  rw [← greatest_insert, ← hs]
  unfold keep
  split_ifs with ha hlong
  · rw [Finset.insert_eq_of_mem (List.mem_toFinset.mpr ha)]
    have hle : l.toFinset.card ≤ k := by
      rw [hs, card_greatest]
      exact Nat.min_le_left ..
    exact (greatest_of_card_le hle).symm
  · have hsorted := sorted_orderedInsert hl ha
    have hset := toFinset_orderedInsert l a
    have hlength := (List.perm_orderedInsert (· ≤ ·) a l).length_eq
    rw [List.length_cons] at hlength
    rw [← hset]
    cases hinserted : l.orderedInsert (· ≤ ·) a with
    | nil => rw [hinserted] at hlength; cases hlength
    | cons first rest =>
        rw [hinserted] at hsorted hlength hlong
        have hfirst := (List.pairwise_cons.mp hsorted).1
        have hnodup : (first :: rest).Nodup := hsorted.imp fun h => h.ne
        rw [greatest_of_card_eq_succ (a := first)]
        · rw [List.toFinset_cons, Finset.erase_insert]
          · rfl
          · exact fun h => (List.nodup_cons.mp hnodup).1 (List.mem_toFinset.mp h)
        · rw [List.toFinset_card_of_nodup hnodup, hlength]
          omega
        · exact List.mem_toFinset.mpr (List.mem_cons_self ..)
        · intro b hb
          rcases List.mem_cons.mp (List.mem_toFinset.mp hb) with rfl | hb
          · exact le_refl b
          · exact (hfirst b hb).le
  · rw [← toFinset_orderedInsert, greatest_of_card_le]
    exact (List.toFinset_card_le _).trans (Nat.le_of_not_lt hlong)

theorem mem_keep (hl : l.Pairwise (· < ·)) (hs : ∀ b, b ∈ l ↔ b ∈ greatest k s) (a : α) :
    b ∈ keep k l a ↔ b ∈ greatest k (insert a s) := by
  have hset : l.toFinset = greatest k s := Finset.ext fun b => List.mem_toFinset.trans (hs b)
  rw [← toFinset_keep hl hset, List.mem_toFinset]

/-- Insertion into a list that is sorted by its keys. -/
def insertKey {β : Type*} (entry : α × β) (l : List (α × β)) : List (α × β) :=
  l.orderedInsert (fun x y => x.1 ≤ y.1) entry

theorem keys_insertKey {β : Type*} (entry : α × β) (l : List (α × β)) :
    (insertKey entry l).map Prod.fst = (l.map Prod.fst).orderedInsert (· ≤ ·) entry.1 := by
  unfold insertKey
  induction l with
  | nil => rfl
  | cons x l ih =>
      rw [List.orderedInsert, List.map_cons, List.orderedInsert]
      split_ifs
      · rfl
      · rw [List.map_cons, ih]

theorem mem_insertKey {β : Type*} {entry x : α × β} {l : List (α × β)} :
    x ∈ insertKey entry l ↔ x = entry ∨ x ∈ l := List.mem_orderedInsert ..

end Sorted

end BtcServer.Lib
