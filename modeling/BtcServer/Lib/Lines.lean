import Mathlib.Data.List.Basic

/-!
# Texts made of lines

A text is a list of lines, each with its terminator.  `lines` takes a text apart; it fails on one
whose last line is not terminated.  Taking texts apart goes well with appending (`lines_append`), so
that a file which only grows is read line by line.
-/

namespace BtcServer.Lib

section

variable {α : Type*}

def unlines (a : α) (ls : List (List α)) : List α := ls.flatMap (· ++ [a])

theorem unlines_cons (a : α) (l : List α) (ls : List (List α)) :
    unlines a (l :: ls) = l ++ a :: unlines a ls := by
  unfold unlines
  rw [List.flatMap_cons, List.append_assoc, List.singleton_append]

theorem unlines_eq_intercalate (a : α) (ls : List (List α)) :
    [a].intercalate (ls ++ [[]]) = unlines a ls := by
  induction ls with
  | nil => rfl
  | cons l ls ih =>
      rw [unlines_cons, ← ih]
      cases ls with
      | nil => simp [List.intercalate]
      | cons m ls => simp [List.intercalate, List.intersperse]

end

variable {α : Type*} [DecidableEq α] {a : α} {s t : List α} {ls ms : List (List α)}

/-- The lines of a text in which every line is terminated. -/
def lines (a : α) (s : List α) : Option (List (List α)) :=
  if (s.splitOn a).getLast? = some [] then some (s.splitOn a).dropLast else none

theorem splitOn_unlines (a : α) (ls : List (List α)) (t : List α) :
    (unlines a ls ++ t).splitOn a = ls.flatMap (List.splitOn a) ++ t.splitOn a := by
  induction ls with
  | nil => rfl
  | cons l ls ih =>
      rw [unlines_cons, List.append_assoc, List.cons_append, List.splitOn_append_cons_self, ih,
        List.flatMap_cons, List.append_assoc]

theorem splitOn_of_lines (h : lines a s = some ls) : s.splitOn a = ls ++ [[]] := by
  unfold lines at h
  split_ifs at h with hlast
  obtain rfl := Option.some.inj h
  exact (List.dropLast_append_getLast? [] hlast).symm

theorem unlines_of_lines (h : lines a s = some ls) : unlines a ls = s := by
  rw [← unlines_eq_intercalate, ← splitOn_of_lines h, List.intercalate_splitOn]

theorem lines_unlines (h : ∀ l ∈ ls, a ∉ l) : lines a (unlines a ls) = some ls := by
  have hsplit : ls.flatMap (List.splitOn a) = ls := by
    induction ls with
    | nil => rfl
    | cons l ls ih =>
        rw [List.flatMap_cons, List.splitOn_eq_singleton (h l List.mem_cons_self),
          ih fun m hm => h m (List.mem_cons_of_mem _ hm)]
        rfl
  have hall : (unlines a ls).splitOn a = ls ++ [[]] := by
    have happend := splitOn_unlines a ls []
    rwa [List.append_nil, hsplit, List.splitOn_nil] at happend
  unfold lines
  rw [hall]
  simp

theorem lines_append (hs : lines a s = some ls) (ht : lines a t = some ms) :
    lines a (s ++ t) = some (ls ++ ms) := by
  have hparts : ls.flatMap (List.splitOn a) = ls := by
    have hself := splitOn_unlines a ls []
    rw [List.append_nil, unlines_of_lines hs, splitOn_of_lines hs, List.splitOn_nil] at hself
    exact (List.append_cancel_right hself).symm
  have hall : (s ++ t).splitOn a = (ls ++ ms) ++ [[]] := by
    rw [← unlines_of_lines hs, splitOn_unlines, hparts, splitOn_of_lines ht, List.append_assoc]
  unfold lines
  rw [hall]
  simp

end BtcServer.Lib
