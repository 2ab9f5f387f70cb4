import Mathlib.Algebra.BigOperators.Group.Finset.Piecewise
import Mathlib.Algebra.GroupWithZero.Nat
import Mathlib.Order.Bounds.Basic

/-!
# Queues and checked loops

Work queues are modelled as lists of tasks.  The environment marks a task in place
(`List.modify`), which must change neither what the queue holds nor its order.

* `List.map_modify_of_eq` — marking a task does not change what the other observations see.
* `List.getElem?_modify_cases` — what stands in a list after one element has been marked.
* `List.countP_modify`, `List.sum_modify` — how a count over the queue, or a sum, moves when one
  element is changed.
* `Finset.sum_update_add` — the same for a sum of counts over several queues.
* `List.update_eq_cases` — the same for a function.
* `List.filterMap_update_perm` — one more element of a list has a value.
* `List.find?_key_eq_some` — an element is found under its key.
* `List.forM_eq_ok`, `List.mapM_eq_ok`, `List.mapM_eq_ok_iff`, `List.mem_of_mapM_ok`,
  `Except.bind_eq_ok` — code that may raise.
* `List.take_drop_flatMap_range` — a block of a list made of blocks of one length.
* `List.map_some_filterMap_map` — a lookup that finds every element.
* `List.flatMap_ite_mem` — what only the owner of an element contributes.
* `List.two_le_countP_range` — two numbers with a property.
* `List.append_zip`, `List.map_fst_zip_eq_take` — a list beside another one.
* `List.getElem?_foldl_set` — what stands in a list after some places have been written.
* `List.isGreatest_foldl_max` — the largest of some numbers.
* `List.chunks` : a list cut into pieces of one length, the last of which may be shorter.
-/

namespace List

open Function

variable {α β : Type*}
variable {l : List α} {bs : List β} {ε : Type*} {a : α} {f : α → α} {g : α → β}

theorem map_modify_of_eq (hg : ∀ a, g (f a) = g a) (l : List α) (j : ℕ) :
    (l.modify j f).map g = l.map g := by
  induction l generalizing j with
  | nil => simp
  | cons a l ih =>
    cases j with
    | zero => simp [hg]
    | succ j => simp [ih]

theorem countP_modify {p : α → Bool} {j : ℕ} (ha : l[j]? = some a) :
    (l.modify j f).countP p + (if p a then 1 else 0) =
      l.countP p + (if p (f a) then 1 else 0) := by
  induction l generalizing j with
  | nil => simp at ha
  | cons b l ih =>
    cases j with
    | zero =>
      obtain rfl : b = a := by simpa using ha
      simp only [modify_zero_cons, countP_cons]
      omega
    | succ j =>
      have := ih (j := j) (by simpa using ha)
      simp only [modify_succ_cons, countP_cons]
      omega

theorem sum_modify {f : ℕ → ℕ} {l : List ℕ} {j a : ℕ} (h : l[j]? = some a) :
    (l.modify j f).sum + a = l.sum + f a := by
  induction l generalizing j with
  | nil => simp at h
  | cons b l ih =>
    cases j with
    | zero =>
      obtain rfl := Option.some.inj h
      simp only [modify_zero_cons, sum_cons]
      omega
    | succ j =>
      have := ih (j := j) (by simpa using h)
      simp only [modify_succ_cons, sum_cons]
      omega

theorem forall_mem_modify {P : α → Prop} (j : ℕ) (hl : ∀ a ∈ l, P a) (hf : ∀ a, P a → P (f a)) :
    ∀ a ∈ l.modify j f, P a := by
  induction l generalizing j with
  | nil => simp
  | cons b l ih =>
    have hb := hl b mem_cons_self
    have hr := fun a ha => hl a (mem_cons_of_mem _ ha)
    cases j with
    | zero => exact forall_mem_cons.2 ⟨hf b hb, hr⟩
    | succ j => exact forall_mem_cons.2 ⟨hb, ih j hr⟩

theorem getElem?_modify_cases {i j : ℕ} {b : α} (h : (l.modify i f)[j]? = some b) :
    ∃ a, l[j]? = some a ∧ (b = a ∨ (j = i ∧ b = f a)) := by
  rw [getElem?_modify, Option.map_eq_map, Option.map_eq_some_iff] at h
  obtain ⟨a, ha, rfl⟩ := h
  refine ⟨a, ha, ?_⟩
  by_cases hij : i = j
  · exact .inr ⟨hij.symm, by simp [hij]⟩
  · exact .inl (by simp [hij])

theorem modify_length_append (f : α → α) (xs : List α) (a : α) (ys : List α) :
    (xs ++ a :: ys).modify xs.length f = xs ++ f a :: ys := by
  induction xs with
  | nil => rfl
  | cons x xs ih => rw [cons_append, length_cons, modify_succ_cons, ih, cons_append]

theorem update_eq_cases [DecidableEq α] {f : α → β} {x : α} {b y : β}
    (h : Function.update f a b x = y) : x = a ∧ b = y ∨ f x = y := by
  by_cases hxa : x = a
  · subst hxa
    exact .inl ⟨rfl, (update_self ..).symm.trans h⟩
  · exact .inr ((update_of_ne hxa _ _).symm.trans h)

theorem filterMap_update_perm [DecidableEq α] {f : α → Option β} (b : β) (hl : l.Nodup) (ha : a ∈ l)
    (hf : f a = none) : (l.filterMap (Function.update f a (some b))).Perm (b :: l.filterMap f) := by
  induction l with
  | nil => cases ha
  | cons x l ih =>
    obtain ⟨hx, hl⟩ := nodup_cons.1 hl
    by_cases hxa : x = a
    · subst hxa
      have hr : l.filterMap (Function.update f x (some b)) = l.filterMap f :=
        filterMap_congr fun y hy => update_of_ne (ne_of_mem_of_not_mem hy hx) _ _
      rw [filterMap_cons_some (update_self ..), filterMap_cons_none hf, hr]
    · have hr := ih hl ((mem_cons.1 ha).resolve_left (Ne.symm hxa))
      have hs : Function.update f a (some b) x = f x := update_of_ne hxa _ _
      cases hfx : f x with
      | none => rwa [filterMap_cons_none (hs.trans hfx), filterMap_cons_none hfx]
      | some y =>
        rw [filterMap_cons_some (hs.trans hfx), filterMap_cons_some hfx]
        exact (hr.cons y).trans (Perm.swap b y _)

theorem find?_key_eq_some [DecidableEq β] {key : α → β} (hnd : (l.map key).Nodup) {k : β} :
    l.find? (key · == k) = some a ↔ a ∈ l ∧ key a = k := by
  constructor
  · intro h
    exact ⟨mem_of_find?_eq_some h, by simpa using find?_some h⟩
  · rintro ⟨ha, rfl⟩
    obtain ⟨as, bs, rfl⟩ := append_of_mem ha
    refine find?_eq_some_iff_append.2 ⟨by simp, as, bs, rfl, fun b hb => ?_⟩
    rw [map_append, nodup_append] at hnd
    simpa using hnd.2.2 (key b) (mem_map_of_mem hb) (key a) (by simp)

/-- The last one of a key is the only one. -/
theorem find?_reverse_key_eq_some [DecidableEq β] {key : α → β} (hnd : (l.map key).Nodup)
    {k : β} : l.reverse.find? (key · == k) = some a ↔ a ∈ l ∧ key a = k := by
  rw [find?_key_eq_some (by rwa [map_reverse, nodup_reverse]), mem_reverse]

theorem forM_eq_ok {f : α → Except ε PUnit} : l.forM f = .ok ⟨⟩ ↔ ∀ a ∈ l, f a = .ok ⟨⟩ := by
  induction l with
  | nil => simp [pure, Except.pure]
  | cons a l ih =>
    simp only [List.forM_eq_forM, List.forM_cons, List.forall_mem_cons] at ih ⊢
    rw [← ih]
    cases f a <;> simp [bind, Except.bind]

theorem mapM_eq_ok {f : α → Except ε β} (h : ∀ a ∈ l, f a = .ok (g a)) :
    l.mapM f = .ok (l.map g) := by
  induction l with
  | nil => rfl
  | cons a l ih =>
    have hr := ih fun b hb => h b (mem_cons_of_mem _ hb)
    simp [mapM_cons, h a mem_cons_self, hr, bind, Except.bind, pure, Except.pure]

/-- A lookup that finds every element keeps the list aligned. -/
theorem map_some_filterMap_map {γ : Type*} {f : α → β} {g : β → Option γ}
    (h : ∀ a ∈ l, ∃ c, g (f a) = some c) :
    ((l.map f).filterMap g).map some = l.map fun a => g (f a) := by
  induction l with
  | nil => rfl
  | cons a l ih =>
    obtain ⟨c, hc⟩ := h a mem_cons_self
    rw [map_cons, filterMap_cons_some hc, map_cons, map_cons, hc,
      ih fun b hb => h b (mem_cons_of_mem _ hb)]

theorem mapM_eq_ok_iff {f : α → Except ε β} {ys : List β} :
    l.mapM f = .ok ys ↔ Forall₂ (fun a b => f a = .ok b) l ys := by
  induction l generalizing ys with
  | nil => cases ys <;> simp [pure, Except.pure]
  | cons a l ih =>
    rw [mapM_cons]
    cases ha : f a with
    | error e => cases ys <;> simp [ha, bind, Except.bind]
    | ok b =>
      cases hl : l.mapM f with
      | error e => cases ys <;> simp [← ih, ha, hl, bind, Except.bind]
      | ok bs => cases ys <;> simp [← ih, ha, hl, bind, Except.bind, pure, Except.pure]

theorem eq_map_of_mapM_ok {f : α → Except ε β} (h : l.mapM f = .ok bs)
    (hg : ∀ a ∈ l, ∀ b, f a = .ok b → b = g a) : bs = l.map g := by
  have hall := mapM_eq_ok_iff.1 h
  clear h
  induction hall with
  | nil => rfl
  | cons hab _ ih =>
    rw [map_cons, hg _ mem_cons_self _ hab, ih fun x hx => hg x (mem_cons_of_mem _ hx)]

theorem mapM_append_ok {f : α → Except ε β} {l' : List α} {bs' : List β} (h : l.mapM f = .ok bs)
    (h' : l'.mapM f = .ok bs') : (l ++ l').mapM f = .ok (bs ++ bs') :=
  mapM_eq_ok_iff.2 (rel_append (mapM_eq_ok_iff.1 h) (mapM_eq_ok_iff.1 h'))

theorem mapM_append_right {f : α → Except ε β} {l' : List α} (h : (l ++ l').mapM f = .ok bs) :
    ∃ bs', l'.mapM f = .ok bs' :=
  ⟨_, mapM_eq_ok_iff.2 (forall₂_drop_append _ _ _ (mapM_eq_ok_iff.1 h).flip).flip⟩

theorem exists_mem_of_forall₂ {r : α → β → Prop} {l' : List β} (h : Forall₂ r l l') (ha : a ∈ l) :
    ∃ b ∈ l', r a b := by
  induction h with
  | nil => cases ha
  | cons hab _ ih =>
    rcases mem_cons.1 ha with rfl | ha
    · exact ⟨_, mem_cons_self, hab⟩
    · obtain ⟨b, hb, hr⟩ := ih ha
      exact ⟨b, mem_cons_of_mem _ hb, hr⟩

theorem mem_of_mapM_ok {f : α → Except ε β} {b : β} (h : l.mapM f = .ok bs) (hb : b ∈ bs) :
    ∃ a ∈ l, f a = .ok b :=
  exists_mem_of_forall₂ (Forall₂.flip (mapM_eq_ok_iff.1 h)) hb

/-- The blocks of a list that is made of `m` blocks of length `n`. -/
theorem take_drop_flatMap_range {g : ℕ → List α} {n m : ℕ} (hlen : ∀ i < m, (g i).length = n)
    (j : ℕ) : (((range m).flatMap g).drop (j * n)).take n = if j < m then g j else [] := by
  induction m with
  | zero => simp
  | succ m ih =>
    have hprev : ((range m).flatMap g).length = m * n := by
      rw [length_flatMap, map_congr_left fun i hi => hlen i (by rw [mem_range] at hi; omega)]
      simp
    rw [range_succ, flatMap_append, flatMap_singleton, drop_append, hprev]
    rcases Nat.lt_trichotomy j m with hlt | rfl | hgt
    · have hle : (j + 1) * n ≤ m * n := Nat.mul_le_mul_right n hlt
      rw [Nat.add_mul, Nat.one_mul] at hle
      rw [take_append_of_le_length (by rw [length_drop, hprev]; omega),
        ih fun i hi => hlen i (by omega), if_pos hlt, if_pos (by omega)]
    · rw [drop_of_length_le hprev.le, Nat.sub_self, drop_zero, nil_append, if_pos (by omega),
        take_of_length_le (hlen j (by omega)).le]
    · have hle : (m + 1) * n ≤ j * n := Nat.mul_le_mul_right n hgt
      rw [Nat.add_mul, Nat.one_mul] at hle
      rw [drop_of_length_le (by omega), drop_of_length_le (by rw [hlen m (by omega)]; omega),
        if_neg (by omega)]
      simp

/-- An element that occurs once among those of several owners has one owner. -/
theorem flatMap_ite_mem {ι : Type*} [DecidableEq α] {own : ι → List α} {xs : List ι}
    (h : (xs.flatMap own).count a = 1) (ys : List β) :
    (xs.flatMap fun x => if a ∈ own x then ys else []) = ys := by
  have hn : ∀ xs : List ι, (xs.flatMap own).count a = 0 →
      (xs.flatMap fun x => if a ∈ own x then ys else []) = [] := by
    intro xs hz
    refine flatMap_eq_nil_iff.2 fun x hx => if_neg fun hmem => ?_
    exact count_eq_zero.1 hz (mem_flatMap.2 ⟨x, hx, hmem⟩)
  induction xs with
  | nil => simp at h
  | cons x xs ih =>
    rw [flatMap_cons, count_append] at h
    rw [flatMap_cons]
    by_cases hmem : a ∈ own x
    · have hpos := count_pos_iff.2 hmem
      rw [if_pos hmem, hn xs (by omega), append_nil]
    · rw [if_neg hmem, nil_append, ih (by rwa [count_eq_zero.2 hmem, Nat.zero_add] at h)]

theorem countP_range_succ (p : ℕ → Bool) (n : ℕ) :
    (range (n + 1)).countP p = (range n).countP p + if p n then 1 else 0 := by
  rw [range_succ, countP_append, countP_singleton]

theorem two_le_countP_range {p : ℕ → Bool} {n : ℕ} :
    2 ≤ (range n).countP p ↔ ∃ a b, a < b ∧ b < n ∧ p a = true ∧ p b = true := by
  have hcard : (range n).countP p = ((Finset.range n).filter (p · = true)).card := by
    show _ = ((range n).filter fun a => decide (p a = true)).length
    simp [countP_eq_length_filter]
  rw [hcard, ← Nat.lt_iff_add_one_le, Finset.one_lt_card]
  simp only [Finset.mem_filter, Finset.mem_range]
  constructor
  · rintro ⟨a, ⟨ha, hpa⟩, b, ⟨hb, hpb⟩, hne⟩
    rcases Nat.lt_or_gt_of_ne hne with hlt | hlt
    · exact ⟨a, b, hlt, hb, hpa, hpb⟩
    · exact ⟨b, a, hlt, ha, hpb, hpa⟩
  · rintro ⟨a, b, hab, hb, hpa, hpb⟩
    exact ⟨a, ⟨hab.trans hb, hpa⟩, b, ⟨hb, hpb⟩, hab.ne⟩

theorem exists_mem_zip_of_forall₂ {γ : Type*} {r : β → γ → Prop} {cs : List γ} (h : Forall₂ r bs cs)
    {c : γ} (hmem : (a, c) ∈ l.zip cs) : ∃ b, (a, b) ∈ l.zip bs ∧ r b c := by
  induction h generalizing l with
  | nil => simp at hmem
  | cons hbc _ ih =>
    cases l with
    | nil => simp at hmem
    | cons a' l =>
      rw [zip_cons_cons, mem_cons] at hmem
      rcases hmem with heq | hmem
      · obtain ⟨rfl, rfl⟩ := Prod.mk.inj heq
        exact ⟨_, mem_cons_self, hbc⟩
      · obtain ⟨b, hb, hr⟩ := ih hmem
        exact ⟨b, mem_cons_of_mem _ hb, hr⟩

theorem append_zip (l₁ l₂ : List α) (l : List β) :
    (l₁ ++ l₂).zip l = l₁.zip (l.take l₁.length) ++ l₂.zip (l.drop l₁.length) := by
  induction l₁ generalizing l with
  | nil => simp
  | cons a l₁ ih =>
    cases l with
    | nil => simp
    | cons b l => simp [ih]

theorem map_fst_zip_eq_take (l : List α) (l' : List β) :
    (l.zip l').map Prod.fst = l.take l'.length := by
  induction l generalizing l' with
  | nil => simp
  | cons a l ih =>
    cases l' with
    | nil => simp
    | cons b l' => simp [ih]

theorem length_foldl_set (writes : List (ℕ × α)) (l : List α) :
    (writes.foldl (fun l write => l.set write.1 write.2) l).length = l.length := by
  induction writes generalizing l with
  | nil => rfl
  | cons write writes ih => rw [foldl_cons, ih, length_set]

theorem getElem?_foldl_set {p : ℕ → α → Prop} {writes : List (ℕ × α)}
    (hws : ∀ write ∈ writes, p write.1 write.2) {i : ℕ}
    (h : (writes.foldl (fun l write => l.set write.1 write.2) l)[i]? = some a) :
    p i a ∨ l[i]? = some a ∧ i ∉ writes.map Prod.fst := by
  induction writes generalizing l with
  | nil => exact .inr ⟨h, by simp⟩
  | cons write writes ih =>
    rw [foldl_cons] at h
    obtain ⟨hwr, hws⟩ := forall_mem_cons.1 hws
    rcases ih hws h with hp | ⟨hset, hmem⟩
    · exact .inl hp
    · rcases eq_or_ne write.1 i with rfl | hne
      · rw [getElem?_set_self'] at hset
        obtain ⟨-, -, rfl⟩ := Option.map_eq_some_iff.1 hset
        exact .inl hwr
      · rw [getElem?_set_ne hne] at hset
        exact .inr ⟨hset, by simpa [hne.symm] using hmem⟩

/-! ### Chunks -/

/-- A list cut into pieces of length `size`; the last one may be shorter. -/
def chunks (size : ℕ) (l : List α) : List (List α) := (toChunksAux (size - 1) l 0).2

theorem toChunksAux_spec (n : ℕ) (l : List α) (i : ℕ) :
    (toChunksAux n l i).1 ++ (toChunksAux n l i).2.flatten = l ∧
      (toChunksAux n l i).1.length ≤ i ∧
      ∀ c ∈ (toChunksAux n l i).2, c ≠ [] ∧ c.length ≤ n + 1 := by
  induction l generalizing i with
  | nil => simp [toChunksAux]
  | cons a l ih =>
    cases i with
    | zero =>
      obtain ⟨hflat, hlen, hall⟩ := ih n
      refine ⟨by simp [toChunksAux, hflat], by simp [toChunksAux], ?_⟩
      simp only [toChunksAux, mem_cons, forall_eq_or_imp]
      exact ⟨⟨cons_ne_nil _ _, by simpa using hlen⟩, hall⟩
    | succ i =>
      obtain ⟨hflat, hlen, hall⟩ := ih i
      exact ⟨by simp [toChunksAux, hflat], by simpa [toChunksAux] using hlen, hall⟩

theorem toChunksAux_of_length_le (n : ℕ) {i : ℕ} (h : l.length ≤ i) :
    toChunksAux n l i = (l, []) := by
  induction l generalizing i with
  | nil => simp [toChunksAux]
  | cons a l ih =>
    obtain ⟨i, rfl⟩ : ∃ j, i = j + 1 := ⟨i - 1, by simp at h; omega⟩
    simp [toChunksAux, ih (by simpa using h : l.length ≤ i)]

theorem isGreatest_foldl_max (g : α → ℕ) (l : List α) (n : ℕ) :
    IsGreatest {c | n = c ∨ ∃ x ∈ l, g x = c} (l.foldl (fun m x => max m (g x)) n) := by
  induction l generalizing n with
  | nil => simp
  | cons x l ih =>
    obtain ⟨hmem, hle⟩ := ih (max n (g x))
    have hmax := hle (.inl rfl)
    refine ⟨?_, ?_⟩
    · rcases hmem with heq | ⟨y, hy, heq⟩
      · rcases max_choice n (g x) with hmax | hmax
        · exact .inl (hmax.symm.trans heq)
        · exact .inr ⟨x, mem_cons_self, hmax.symm.trans heq⟩
      · exact .inr ⟨y, mem_cons_of_mem _ hy, heq⟩
    · rintro _ (rfl | ⟨y, hy, rfl⟩)
      · exact (le_max_left _ _).trans hmax
      · rcases mem_cons.1 hy with rfl | hy
        · exact (le_max_right _ _).trans hmax
        · exact hle (.inr ⟨y, hy, rfl⟩)

theorem flatten_chunks (size : ℕ) (l : List α) : (l.chunks size).flatten = l := by
  obtain ⟨hflat, hlen, -⟩ := toChunksAux_spec (size - 1) l 0
  have hnil : (toChunksAux (size - 1) l 0).1 = [] := eq_nil_of_length_eq_zero (by omega)
  rwa [hnil, nil_append] at hflat

theorem mem_chunks {size : ℕ} (hs : 0 < size) {c : List α} (h : c ∈ l.chunks size) :
    c ≠ [] ∧ c.length ≤ size := by
  have := (toChunksAux_spec (size - 1) l 0).2.2 c h
  rwa [Nat.sub_add_cancel hs] at this

theorem chunks_of_length_le {size : ℕ} (hne : l ≠ []) (h : l.length ≤ size) :
    l.chunks size = [l] := by
  obtain ⟨a, l, rfl⟩ := exists_cons_of_ne_nil hne
  have hlen : l.length ≤ size - 1 := by
    simp only [length_cons] at h
    omega
  simp [chunks, toChunksAux, toChunksAux_of_length_le _ hlen]

end List

/-- Code that went on after a part that may raise. -/
theorem Except.bind_eq_ok.{u, v} {α β : Type u} {ε : Type v} {x : Except ε α}
    {f : α → Except ε β} {b : β} : x >>= f = .ok b ↔ ∃ a, x = .ok a ∧ f a = .ok b := by
  cases x <;> simp [bind, Except.bind]

theorem Finset.sum_update_add {ι : Type*} [DecidableEq ι] {s : Finset ι} {i : ι} (hi : i ∈ s)
    (f : ι → ℕ) (x : ℕ) : (∑ j ∈ s, Function.update f i x j) + f i = (∑ j ∈ s, f j) + x := by
  rw [Finset.sum_update_of_mem hi, ← Finset.add_sum_erase s f hi, Finset.sdiff_singleton_eq_erase]
  omega
