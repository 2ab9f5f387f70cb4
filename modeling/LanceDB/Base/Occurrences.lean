import LanceDB.Base.Fusion

/-!
# Restoring occurrences

A lookup returns every element that was asked for once.  The list that was asked for, with its
repetitions, is rebuilt from the indices of what was returned: either every element is repeated
where it stands, or the indices are listed in the order of the request.

* `Occurrences.tally`, `Occurrences.places` : how often an element occurs, and where it stands.
* `Occurrences.repeated`, `Occurrences.requested` : the two lists of indices.
* `Occurrences.take_repeated`, `Occurrences.take_requested` — the elements at those indices.
* `Occurrences.perm_flatMap_replicate` — distinct elements, each repeated as often as it occurs, are
  the list they come from.
-/

namespace Occurrences

open List

variable {α β : Type*}

/-- Every index as often as the element there is counted. -/
def repeated (counts : α → Option ℕ) (xs : List α) : List ℕ :=
  xs.zipIdx.flatMap fun p =>
    match counts p.1 with
    | some count => List.replicate count p.2
    | none => []

/-- The elements at the repeated indices: every element is repeated where it stands. -/
theorem take_repeated (counts : α → Option ℕ) (g : α → β) (xs : List α) :
    Fusion.takeIndices (repeated counts xs) (xs.map g) =
      xs.flatMap fun x => List.replicate ((counts x).getD 0) (g x) := by
  have hfrom : ∀ ys : List α, Fusion.takeIndices
      ((xs.zipIdx ys.length).flatMap fun p =>
        match counts p.1 with
        | some count => List.replicate count p.2
        | none => []) ((ys ++ xs).map g) =
      xs.flatMap fun x => List.replicate ((counts x).getD 0) (g x) := by
    induction xs with
    | nil => intro ys; rfl
    | cons x xs ih =>
      intro ys
      have hr := ih (ys ++ [x])
      rw [length_append, length_singleton, append_assoc, singleton_append]
        at hr
      rw [zipIdx_cons, flatMap_cons, flatMap_cons, ← hr, Fusion.takeIndices,
        filterMap_append, ← Fusion.takeIndices, ← Fusion.takeIndices]
      refine congrArg (· ++ _) ?_
      cases counts x with
      | none => rfl
      | some count => simp [Fusion.takeIndices]
  exact hfrom []

variable [DecidableEq α]

/-- How often every element occurs in a list. -/
def tally (xs : List α) : α → Option ℕ :=
  xs.foldl (fun counts x => Function.update counts x (some ((counts x).getD 0 + 1))) fun _ => none

/-- The last place of every element of a list. -/
def places (xs : List α) : α → Option ℕ :=
  xs.zipIdx.foldl (fun index p => Function.update index p.1 (some p.2)) fun _ => none

/-- The indices of the elements of a request, in its order. -/
def requested (request xs : List α) : List ℕ := request.filterMap (places xs)

theorem foldl_tally (counts : α → Option ℕ) (xs : List α) (a : α) :
    xs.foldl (fun counts x => Function.update counts x (some ((counts x).getD 0 + 1))) counts a =
      if a ∈ xs then some ((counts a).getD 0 + xs.count a) else counts a := by
  induction xs generalizing counts with
  | nil => simp
  | cons x xs ih =>
    rw [foldl_cons, ih]
    by_cases hx : a = x
    · subst hx
      by_cases hmem : a ∈ xs
      · simp only [hmem, if_true, Function.update_self, Option.getD_some, mem_cons, true_or,
          count_cons_self, Nat.add_assoc, Nat.add_comm 1]
      · simp [hmem, count_eq_zero_of_not_mem hmem]
    · simp [hx, Ne.symm hx]

theorem tally_eq (xs : List α) (a : α) :
    tally xs a = if a ∈ xs then some (xs.count a) else none := by
  rw [tally, foldl_tally, Option.getD_none, Nat.zero_add]

theorem getD_tally (xs : List α) (a : α) : (tally xs a).getD 0 = xs.count a := by
  rw [tally_eq]
  split_ifs with hmem
  · rfl
  · exact (count_eq_zero.2 hmem).symm

theorem foldl_places (index : α → Option ℕ) {xs : List α} (hnd : xs.Nodup) (i : ℕ) (a : α) :
    (xs.zipIdx i).foldl (fun (index : α → Option ℕ) p => Function.update index p.1 (some p.2))
        index a =
      if a ∈ xs then some (i + xs.idxOf a) else index a := by
  induction xs generalizing index i with
  | nil => simp
  | cons x xs ih =>
    obtain ⟨hx, hnd⟩ := nodup_cons.1 hnd
    rw [zipIdx_cons, foldl_cons, ih _ hnd]
    by_cases heq : a = x
    · subst heq
      simp [hx]
    · by_cases hmem : a ∈ xs
      · simp only [hmem, if_true, mem_cons, or_true, idxOf_cons_ne _ (Ne.symm heq)]
        congr 1
        omega
      · simp [hmem, heq]

theorem places_eq {xs : List α} (hnd : xs.Nodup) (a : α) :
    places xs a = if a ∈ xs then some (xs.idxOf a) else none := by
  rw [places, foldl_places _ hnd, Nat.zero_add]

/-- The elements at the requested indices: those of the request that were returned. -/
theorem take_requested (request : List α) {xs : List α} (hnd : xs.Nodup) (g : α → β) :
    Fusion.takeIndices (requested request xs) (xs.map g) =
      (request.filter (· ∈ xs)).map g := by
  have hplaces : ∀ a, (places xs a).bind (fun i => (xs.map g)[i]?) =
      if a ∈ xs then some (g a) else none := by
    intro a
    rw [places_eq hnd]
    split_ifs with hmem
    · have hlt := idxOf_lt_length_of_mem hmem
      simp [hlt]
    · rfl
  rw [Fusion.takeIndices, requested, filterMap_filterMap]
  induction request with
  | nil => rfl
  | cons a request ih =>
    by_cases hmem : a ∈ xs
    · rw [filterMap_cons_some (b := g a) (by rw [hplaces, if_pos hmem]), ih,
        filter_cons_of_pos (by simpa using hmem), map_cons]
    · rw [filterMap_cons_none (by rw [hplaces, if_neg hmem]), ih,
        filter_cons_of_neg (by simpa using hmem)]

/-- **Distinct elements, each repeated as often as it occurs in a list, are the elements of the list
that are among them.** -/
theorem perm_flatMap_replicate (xs : List α) {distinct : List α} (hnd : distinct.Nodup) :
    (distinct.flatMap fun x => List.replicate (xs.count x) x).Perm
      (xs.filter (· ∈ distinct)) := by
  refine perm_iff_count.2 fun a => ?_
  have hcnt : (distinct.flatMap fun x => List.replicate (xs.count x) x).count a =
      if a ∈ distinct then xs.count a else 0 := by
    induction distinct with
    | nil => simp
    | cons d distinct ih =>
      obtain ⟨hd, hnd⟩ := nodup_cons.1 hnd
      rw [flatMap_cons, count_append, ih hnd, count_replicate]
      by_cases heq : a = d
      · subst heq
        simp [hd]
      · simp [heq, Ne.symm heq]
  rw [hcnt]
  split_ifs with hmem
  · rw [count_filter (by simpa using hmem)]
  · exact (count_eq_zero.2 fun h => hmem (by simpa using of_mem_filter h)).symm

end Occurrences
