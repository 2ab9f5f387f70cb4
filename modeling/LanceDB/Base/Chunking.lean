import Mathlib.Data.List.Nodup
import Mathlib.Tactic.Ring

/-!
# Cutting a stream of documents into blocks

Documents are joined into one stream, each followed by an end mark, and the stream is cut into
blocks of a fixed length through a *window*: documents are pushed at its end and blocks are cut
off its front.  The window also keeps where the documents in it start.

* `stream`, `starts` : the stream of a list of documents, and where they start in it.
* `Window`, `Window.push`, `Window.cut` : the window.
* `Window.At` : the window lies at an offset of the stream; kept by `push` and `cut`.
* `Window.At.block_eq`, `Window.At.countP_starts` — the block at the front of the window.
* `flatMap_padTo` — the blocks, one after the other, are the padded stream.
-/

namespace LanceDB

open List

namespace Chunking

variable {τ : Type*}

/-- The stream of a list of documents: each is followed by the end mark. -/
def stream (eos : τ) (docs : List (List τ)) : List τ := docs.flatMap (· ++ [eos])

/-- Where the documents of a stream that begins at offset `off` start. -/
def starts : ℕ → List (List τ) → List ℕ
  | _, [] => []
  | off, d :: docs => off :: starts (off + (d.length + 1)) docs

@[simp] theorem stream_nil (eos : τ) : stream eos [] = [] := rfl

@[simp] theorem stream_cons (eos : τ) (d : List τ) (docs : List (List τ)) :
    stream eos (d :: docs) = d ++ eos :: stream eos docs := by
  simp [stream]

theorem le_of_mem_starts {off s : ℕ} {docs : List (List τ)} (h : s ∈ starts off docs) :
    off ≤ s := by
  induction docs generalizing off with
  | nil => simp [starts] at h
  | cons d docs ih =>
    rcases mem_cons.1 h with rfl | h
    · exact le_rfl
    · have := ih h
      omega

theorem starts_pairwise (off : ℕ) (docs : List (List τ)) : (starts off docs).Pairwise (· < ·) := by
  induction docs generalizing off with
  | nil => exact List.Pairwise.nil
  | cons d docs ih =>
    refine pairwise_cons.2 ⟨fun s hs => ?_, ih _⟩
    have := le_of_mem_starts hs
    omega

theorem starts_add (k off : ℕ) (docs : List (List τ)) :
    (starts (off + k) docs).map (· - k) = starts off docs := by
  induction docs generalizing off with
  | nil => rfl
  | cons d docs ih =>
    simp only [starts, map_cons, Nat.add_sub_cancel]
    rw [show off + k + (d.length + 1) = off + (d.length + 1) + k by omega, ih]

/-- A list filled up to `len` elements. -/
def padTo (len : ℕ) (padding : τ) (xs : List τ) : List τ :=
  xs ++ List.replicate (len - xs.length) padding

/-- **The padded blocks of a list, one after the other, are the padded list.** -/
theorem flatMap_padTo (len n : ℕ) (padding : τ) (xs : List τ) :
    (List.range n).flatMap (fun k => padTo len padding ((xs.drop (k * len)).take len)) =
      padTo (n * len) padding (xs.take (n * len)) := by
  induction n with
  | zero => simp [padTo]
  | succ n ih =>
    rw [range_succ, flatMap_append, ih, Nat.succ_mul]
    simp only [flatMap_cons, flatMap_nil, append_nil]
    rcases Nat.le_total (n * len) xs.length with hle | hle
    · -- the blocks so far are full
      have hf : (xs.take (n * len)).length = n * len := by simpa using hle
      rw [take_add]
      simp only [padTo, hf, Nat.sub_self, replicate_zero, append_nil,
        length_append, append_assoc]
      rw [Nat.add_sub_add_left]
    · -- the list is used up
      rw [drop_eq_nil_of_le hle, take_of_length_le hle,
        take_of_length_le (hle.trans (Nat.le_add_right _ _))]
      simp only [padTo, take_nil, nil_append, length_nil, Nat.sub_zero,
        append_assoc, replicate_append_replicate]
      congr 2
      omega

/-! ### Running sums -/

/-- The running sums of a list. -/
def cumsum (acc : ℕ) : List ℕ → List ℕ
  | [] => []
  | x :: xs => (acc + x) :: cumsum (acc + x) xs

theorem length_cumsum (acc : ℕ) (xs : List ℕ) : (cumsum acc xs).length = xs.length := by
  induction xs generalizing acc with
  | nil => rfl
  | cons x xs ih => rw [cumsum, length_cons, ih, length_cons]

theorem getElem?_cumsum (acc : ℕ) (xs : List ℕ) {p : ℕ} (hp : p < xs.length) :
    (cumsum acc xs)[p]? = some (acc + (xs.take (p + 1)).sum) := by
  induction xs generalizing acc p with
  | nil => simp at hp
  | cons x xs ih =>
    cases p with
    | zero => simp [cumsum]
    | succ p =>
      rw [cumsum, getElem?_cons_succ, ih _ (by simpa using hp)]
      simp [Nat.add_assoc]

theorem sum_indicator {ds : List ℕ} (hnd : ds.Nodup) (m : ℕ) :
    ((List.range m).map fun q => if q ∈ ds then 1 else 0).sum = ds.countP (· < m) := by
  induction m with
  | zero => simp
  | succ m ih =>
    have hspl : ds.countP (· < m + 1) = ds.countP (· < m) + ds.count m := by
      clear ih hnd
      induction ds with
      | nil => rfl
      | cons d ds ih =>
        simp only [countP_cons, count_cons, ih, decide_eq_true_eq, beq_iff_eq]
        split_ifs <;> omega
    rw [range_succ, map_append, sum_append, ih, hspl]
    by_cases hm : m ∈ ds
    · simp [hm, hnd.count]
    · simp [hm, count_eq_zero_of_not_mem hm]

/-! ### The window -/

/-- A part of the stream, with the places in it where documents start. -/
structure Window (τ : Type*) where
  tokens : List τ
  starts : List ℕ
  deriving DecidableEq

namespace Window

/-- The window before the first document. -/
def empty : Window τ := ⟨[], []⟩

/-- A document is appended. -/
def push (eos : τ) (w : Window τ) (d : List τ) : Window τ :=
  ⟨w.tokens ++ d ++ [eos], w.starts ++ [w.tokens.length]⟩

/-- A block of `len` tokens is cut off the front. -/
def cut (len : ℕ) (w : Window τ) : Window τ :=
  ⟨w.tokens.drop len, (w.starts.filter (len ≤ ·)).map (· - len)⟩

/-- The window is filled up to `len` tokens. -/
def pad (len : ℕ) (padding : τ) (w : Window τ) : Window τ :=
  { w with tokens := w.tokens ++ List.replicate (len - w.tokens.length) padding }

/-- **The window lies at offset `off`** of the stream of `docs`, of which `rest` has not been
pushed. -/
structure At (eos : τ) (docs : List (List τ)) (off : ℕ) (w : Window τ) (rest : List (List τ)) :
    Prop where
  tokens : (stream eos docs).drop off = w.tokens ++ stream eos rest
  starts : ((Chunking.starts 0 docs).filter (off ≤ ·)).map (· - off) =
    w.starts ++ Chunking.starts w.tokens.length rest

variable {eos : τ} {docs rest : List (List τ)} {off len : ℕ} {w : Window τ}

theorem At.empty (eos : τ) (docs : List (List τ)) : At eos docs 0 Window.empty docs := by
  refine ⟨by simp [Window.empty], ?_⟩
  simp [Window.empty]

theorem At.push {d : List τ} (h : At eos docs off w (d :: rest)) :
    At eos docs off (w.push eos d) rest := by
  refine ⟨?_, ?_⟩
  · rw [h.tokens]
    simp [Window.push]
  · rw [h.starts]
    simp [Window.push, Chunking.starts]

/-- A block is cut off a window that holds one, or whose documents have all been pushed. -/
theorem At.cut (h : At eos docs off w rest) (hf : len ≤ w.tokens.length ∨ rest = []) :
    At eos docs (off + len) (w.cut len) rest := by
  have hd : (w.tokens ++ stream eos rest).drop len = w.tokens.drop len ++ stream eos rest := by
    rcases hf with hlen | rfl
    · rw [drop_append_of_le_length hlen]
    · simp
  -- the starts that are cut off are those in the block
  have hsf : ((Chunking.starts 0 docs).filter (off + len ≤ ·)).map (· - (off + len)) =
      ((((Chunking.starts 0 docs).filter (off ≤ ·)).map (· - off)).filter (len ≤ ·)).map
        (· - len) := by
    rw [filter_map, filter_filter, map_map]
    have hpred : (Chunking.starts 0 docs).filter (off + len ≤ ·) =
        (Chunking.starts 0 docs).filter
          (fun s => ((fun s => decide (len ≤ s)) ∘ fun s => s - off) s && decide (off ≤ s)) := by
      refine filter_congr fun s _ => ?_
      simp only [Function.comp, ← Bool.decide_and, decide_eq_decide]
      omega
    rw [hpred]
    refine map_congr_left fun s _ => ?_
    simp only [Function.comp]
    omega
  have hr : ((Chunking.starts w.tokens.length rest).filter (len ≤ ·)).map (· - len) =
      Chunking.starts (w.tokens.length - len) rest := by
    rcases hf with hlen | rfl
    · rw [filter_eq_self.2 fun s hs => by
        have := le_of_mem_starts hs
        simp only [decide_eq_true_eq]
        omega]
      have := starts_add len (w.tokens.length - len) rest
      rwa [Nat.sub_add_cancel hlen] at this
    · rfl
  refine ⟨?_, ?_⟩
  · rw [← drop_drop, h.tokens, hd]
    rfl
  · rw [hsf, h.starts, filter_append, map_append, hr]
    simp [Window.cut]

/-- **The block at the front of the window** is the block of the stream at its offset. -/
theorem At.block_eq (h : At eos docs off w rest) (hf : len ≤ w.tokens.length ∨ rest = [])
    (padding : τ) : (w.pad len padding).tokens.take len =
      padTo len padding (((stream eos docs).drop off).take len) := by
  rw [h.tokens, Window.pad]
  by_cases hlen : len ≤ w.tokens.length
  · have ht : (w.tokens.take len).length = len := by simpa using hlen
    rw [Nat.sub_eq_zero_of_le hlen, replicate_zero, append_nil,
      take_append_of_le_length hlen, padTo, ht, Nat.sub_self, replicate_zero,
      append_nil]
  · -- the last document has been pushed
    obtain rfl : rest = [] := hf.resolve_left hlen
    rw [stream_nil, append_nil, take_of_length_le (by omega : w.tokens.length ≤ len),
      take_of_length_le]
    · rfl
    · simp only [length_append, length_replicate]
      omega

theorem cut_pad (len : ℕ) (padding : τ) (w : Window τ) :
    (w.pad len padding).cut len = w.cut len := by
  have htokens : (w.pad len padding).tokens.drop len = w.tokens.drop len := by
    rw [Window.pad]
    rcases Nat.le_total len w.tokens.length with hle | hle
    · rw [Nat.sub_eq_zero_of_le hle, replicate_zero, append_nil]
    · rw [drop_of_length_le hle, drop_of_length_le]
      simp only [length_append, length_replicate]
      omega
  rw [Window.cut, htokens]
  rfl

theorem At.nodup_starts (h : At eos docs off w rest) : w.starts.Nodup := by
  have hpair : (((Chunking.starts 0 docs).filter (off ≤ ·)).map (· - off)).Nodup := by
    refine List.Nodup.map_on (fun s hs t ht hst => ?_)
      (((starts_pairwise 0 docs).imp fun hlt => Nat.ne_of_lt hlt).filter _)
    have hs' := (mem_filter.1 hs).2
    have ht' := (mem_filter.1 ht).2
    simp only [decide_eq_true_eq] at hs' ht'
    omega
  rw [h.starts] at hpair
  exact hpair.of_append_left

/-- The documents that start in the block, behind its first token. -/
theorem At.countP_starts (h : At eos docs off w rest)
    (hf : len ≤ w.tokens.length ∨ rest = []) {p : ℕ} (hp : p < len) :
    w.starts.countP (fun s => decide (0 < s ∧ s ≤ p)) =
      (Chunking.starts 0 docs).countP (fun s => decide (off < s ∧ s ≤ off + p)) := by
  have hr : (Chunking.starts w.tokens.length rest).countP
      (fun s => decide (0 < s ∧ s ≤ p)) = 0 := by
    rcases hf with hlen | rfl
    · rw [countP_eq_zero]
      intro s hs
      have := le_of_mem_starts hs
      simp only [decide_eq_true_eq]
      omega
    · rfl
  have hcnt := congrArg (List.countP fun s => decide (0 < s ∧ s ≤ p)) h.starts
  rw [countP_append, hr, Nat.add_zero, countP_map, countP_filter] at hcnt
  rw [← hcnt]
  refine countP_congr fun s _ => ?_
  simp only [Function.comp, Bool.and_eq_true, decide_eq_true_eq]
  omega

end Window

end Chunking

end LanceDB
