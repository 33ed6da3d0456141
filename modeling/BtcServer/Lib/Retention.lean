import BtcServer.Lib.Greatest

/-!
# A store that keeps what is filed under the greatest names

Entries are filed under names, and of all names ever used the `k` greatest are kept.  `retained` says
what such a store holds, from the entries alone; the lemmas say what one more entry changes.
-/

namespace BtcServer.Lib

variable {κ β : Type*} [LinearOrder κ] {k : Nat} {store : κ → Option (List β)}
  {filed : List (κ × List β)} {name fn : κ} {data : List β}

def contents (filed : List (κ × List β)) (name : κ) : List β :=
  (filed.filterMap fun entry => if entry.1 = name then some entry.2 else none).flatten

def namesOf (filed : List (κ × List β)) : Finset κ := (filed.map Prod.fst).toFinset

/-- The store as it is once all this has been filed: of the names that were used the `k` greatest are
kept, with everything that was filed under them, and the others are gone. -/
def retained (k : Nat) (store : κ → Option (List β)) (filed : List (κ × List β)) (name : κ) :
    Option (List β) :=
  if name ∈ namesOf filed then
    if name ∈ greatest k (namesOf filed) then
      some ((store name).getD [] ++ contents filed name)
    else none
  else store name

theorem contents_snoc (filed : List (κ × List β)) (fn : κ) (data : List β) (name : κ) :
    contents (filed ++ [(fn, data)]) name =
      if fn = name then contents filed name ++ data else contents filed name := by
  unfold contents
  rw [List.filterMap_append, List.flatten_append]
  split_ifs with h <;> simp [h]

theorem contents_of_notMem (h : name ∉ namesOf filed) : contents filed name = [] := by
  have hnone : (filed.filterMap fun entry => if entry.1 = name then some entry.2 else none) = [] := by
    rw [List.filterMap_eq_nil_iff]
    intro entry hentry
    rw [if_neg]
    rintro rfl
    exact h (List.mem_toFinset.mpr (List.mem_map_of_mem hentry))
  unfold contents
  rw [hnone]
  rfl

theorem namesOf_snoc (filed : List (κ × List β)) (fn : κ) (data : List β) :
    namesOf (filed ++ [(fn, data)]) = insert fn (namesOf filed) := by
  unfold namesOf
  rw [List.map_append, List.toFinset_append, Finset.union_comm]
  rfl

theorem retained_self (h : fn ∈ greatest k (namesOf (filed ++ [(fn, data)]))) :
    retained k store (filed ++ [(fn, data)]) fn =
      some ((retained k store filed fn).getD [] ++ data) := by
  rw [namesOf_snoc] at h
  unfold retained
  rw [namesOf_snoc, if_pos (Finset.mem_insert_self ..), if_pos h, contents_snoc, if_pos rfl,
    ← List.append_assoc]
  by_cases hmem : fn ∈ namesOf filed
  · rw [if_pos hmem, if_pos (mem_greatest_of_insert h hmem)]
    rfl
  · rw [if_neg hmem, contents_of_notMem hmem, List.append_nil]

theorem retained_self_of_notMem (h : fn ∉ greatest k (namesOf (filed ++ [(fn, data)]))) :
    retained k store (filed ++ [(fn, data)]) fn = none := by
  rw [namesOf_snoc] at h
  unfold retained
  rw [namesOf_snoc, if_pos (Finset.mem_insert_self ..), if_neg h]

theorem retained_of_ne (h : name ≠ fn) : retained k store (filed ++ [(fn, data)]) name =
    if name ∈ greatest k (namesOf filed) ∧
        name ∉ greatest k (namesOf (filed ++ [(fn, data)])) then none
    else retained k store filed name := by
  have hinsert : name ∈ insert fn (namesOf filed) ↔ name ∈ namesOf filed := by
    rw [Finset.mem_insert]
    exact ⟨fun hname => hname.resolve_left h, .inr⟩
  unfold retained
  rw [namesOf_snoc, contents_snoc, if_neg (Ne.symm h)]
  by_cases hmem : name ∈ namesOf filed
  · rw [if_pos (hinsert.mpr hmem), if_pos hmem]
    by_cases hkept : name ∈ greatest k (insert fn (namesOf filed))
    · rw [if_pos hkept, if_neg fun hgone => hgone.2 hkept,
        if_pos (mem_greatest_of_insert hkept hmem)]
    · rw [if_neg hkept]
      by_cases hwas : name ∈ greatest k (namesOf filed)
      · rw [if_pos ⟨hwas, hkept⟩]
      · rw [if_neg fun hgone => hwas hgone.1, if_neg hwas]
  · rw [if_neg fun hname => hmem (hinsert.mp hname), if_neg hmem,
      if_neg fun hgone => hmem (greatest_subset _ _ hgone.1)]

theorem mem_keep_namesOf {l : List κ} (hl : l.Pairwise (· < ·))
    (hs : ∀ n, n ∈ l ↔ n ∈ greatest k (namesOf filed)) :
    name ∈ keep k l fn ↔ name ∈ greatest k (namesOf (filed ++ [(fn, data)])) := by
  rw [mem_keep hl hs, namesOf_snoc]

/-! ## Renaming -/

section Renaming

variable {ι : Type*} [LinearOrder ι] {f : ι → κ}

theorem above_image (hf : StrictMono f) (s : Finset ι) (a : ι) :
    above (s.image f) (f a) = (above s a).image f := by
  unfold above
  rw [Finset.filter_image]
  simp only [hf.lt_iff_lt]

theorem mem_greatest_image (hf : StrictMono f) {s : Finset ι} {a : ι} :
    f a ∈ greatest k (s.image f) ↔ a ∈ greatest k s := by
  rw [mem_greatest, mem_greatest, above_image hf, Finset.card_image_of_injective _ hf.injective,
    Finset.mem_image]
  constructor
  · rintro ⟨⟨b, hb, heq⟩, hcard⟩
    exact ⟨hf.injective heq ▸ hb, hcard⟩
  · rintro ⟨ha, hcard⟩
    exact ⟨⟨a, ha, rfl⟩, hcard⟩

theorem retained_map (hf : StrictMono f) (filed : List (ι × List β)) (a : ι) :
    retained k store (filed.map (Prod.map f id)) (f a) =
      retained k (fun b => store (f b)) filed a := by
  have hnames : namesOf (filed.map (Prod.map f id)) = (namesOf filed).image f := by
    ext b
    simp [namesOf]
  have hmem : f a ∈ namesOf (filed.map (Prod.map f id)) ↔ a ∈ namesOf filed := by
    rw [hnames, Finset.mem_image]
    exact ⟨fun ⟨b, hb, heq⟩ => hf.injective heq ▸ hb, fun ha => ⟨a, ha, rfl⟩⟩
  have hcontents : contents (filed.map (Prod.map f id)) (f a) = contents filed a := by
    unfold contents
    rw [List.filterMap_map]
    congr 2
    funext entry
    simp [hf.injective.eq_iff]
  rw [hnames] at hmem
  unfold retained
  simp only [hnames, hmem, hcontents, mem_greatest_image hf]

end Renaming

end BtcServer.Lib
