import LanceDB.Base.EState

/-!
# Calls to a server

A call is a program that sends requests, one after the other, and may fail.  Its state is the list
of the requests sent so far.  The server may answer by all of them, so nothing is assumed about what
happens between two requests.

* `Call`, `Call.send` : calls, and the request they are made of.
* `Call.Asks K Q` : all requests of a call satisfy `K`, and what it returns satisfies `Q`; with one
  rule for each way to build a call.
* `Call.loop` : a loop in a call, with fuel.
* `Call.Asks.loop` — a loop whose body keeps an invariant and lowers a variant ends.
-/

/-- A program that sends requests `R` and may fail with `ε`. -/
abbrev Call (ε R α : Type) := EStateM ε (List R) α

namespace Call

variable {ε R α β S : Type} {K : R → Prop} {P Q : α → Prop}

/-- Send a request; the answer depends on the requests before it. -/
def send (request : R) (answer : List R → Except ε α) : Call ε R α := fun log =>
  match answer log with
  | .ok a => .ok a (log ++ [request])
  | .error e => .error e (log ++ [request])

/-- What a computation without requests returns. -/
def ofExcept : Except ε α → Call ε R α
  | .ok a => pure a
  | .error e => throw e

/-- A call whose failure is handed to the caller. -/
def attempt (m : Call ε R α) : Call ε R (Except ε α) := fun log =>
  match m log with
  | .ok a log' => .ok (.ok a) log'
  | .error e log' => .ok (.error e) log'

/-- Repeat a body until it returns a result; `none` if the fuel does not suffice. -/
def loop (body : S → Call ε R (α ⊕ S)) :
    ℕ → S → List R → Option (EStateM.Result ε (List R) α)
  | 0, _, _ => none
  | fuel + 1, s, log =>
    match body s log with
    | .ok (.inl a) log' => some (.ok a log')
    | .ok (.inr s') log' => loop body fuel s' log'
    | .error e log' => some (.error e log')

/-- A log that went on with requests that satisfy `K`. -/
def Extends (K : R → Prop) (log log' : List R) : Prop :=
  ∃ sent, log' = log ++ sent ∧ ∀ r ∈ sent, K r

theorem Extends.refl (log : List R) : Extends K log log := ⟨[], by simp, by simp⟩

theorem Extends.trans {log log' log'' : List R} (h : Extends K log log')
    (h' : Extends K log' log'') : Extends K log log'' := by
  obtain ⟨sent, rfl, hsent⟩ := h
  obtain ⟨sent', rfl, hsent'⟩ := h'
  refine ⟨sent ++ sent', List.append_assoc .., fun r hr => ?_⟩
  exact (List.mem_append.1 hr).elim (hsent r) (hsent' r)

/-- How a call from a log has ended: the requests it sent satisfy `K`, and what it returned, if it
did, satisfies `Q`. -/
def Meets (K : R → Prop) (Q : α → Prop) (log : List R) : EStateM.Result ε (List R) α → Prop
  | .ok a log' => Extends K log log' ∧ Q a
  | .error _ log' => Extends K log log'

/-- All requests sent until the end of a call. -/
def sent : EStateM.Result ε (List R) α → List R
  | .ok _ log => log
  | .error _ log => log

theorem Meets.sent {result : EStateM.Result ε (List R) α} (h : Meets K Q [] result) :
    ∀ r ∈ Call.sent result, K r := by
  have hlog : Extends K [] (Call.sent result) := by
    cases result with
    | ok a log => exact h.1
    | error e log => exact h
  obtain ⟨sent, heq, hsent⟩ := hlog
  rwa [heq]

theorem Meets.of_extends {log log' : List R} {result : EStateM.Result ε (List R) α}
    (hlog : Extends K log log') (h : Meets K Q log' result) : Meets K Q log result := by
  cases result with
  | ok a log'' => exact ⟨hlog.trans h.1, h.2⟩
  | error e log'' => exact hlog.trans h

/-- All requests of a call satisfy `K`, whatever it ends with, and what it returns satisfies `Q`. -/
def Asks (K : R → Prop) (Q : α → Prop) (m : Call ε R α) : Prop := ∀ log, Meets K Q log (m log)

namespace Asks

variable {m : Call ε R α}

theorem mono (h : Asks K P m) (himp : ∀ a, P a → Q a) : Asks K Q m := by
  intro log
  have hm := h log
  cases hrun : m log with
  | ok a log' =>
    rw [hrun] at hm
    exact ⟨hm.1, himp a hm.2⟩
  | error e log' =>
    rw [hrun] at hm
    exact hm

theorem pure {a : α} (h : Q a) : Asks K Q (Pure.pure a : Call ε R α) :=
  fun log => ⟨.refl log, h⟩

theorem throw (e : ε) : Asks K Q (MonadExcept.throw e : Call ε R α) := fun log => Extends.refl log

theorem ofExcept {x : Except ε α} : Asks K (x = .ok ·) (Call.ofExcept x : Call ε R α) := by
  cases x with
  | ok a => exact pure rfl
  | error e => exact throw e

theorem send {request : R} {answer : List R → Except ε α} (hK : K request) :
    Asks K (fun a => ∃ log, answer log = .ok a) (Call.send request answer) := by
  intro log
  have hlog : Extends K log (log ++ [request]) := ⟨[request], rfl, by simpa using hK⟩
  rw [Call.send]
  cases hans : answer log with
  | ok a => exact ⟨hlog, log, hans⟩
  | error e => exact hlog

theorem bind {f : α → Call ε R β} {Q : β → Prop} (hm : Asks K P m)
    (hf : ∀ a, P a → Asks K Q (f a)) : Asks K Q (m >>= f) := by
  intro log
  have hme := hm log
  rw [EStateM.bind_apply]
  cases hrun : m log with
  | ok a log' =>
    rw [hrun] at hme
    exact (hf a hme.2 log').of_extends hme.1
  | error e log' =>
    rw [hrun] at hme
    exact hme

theorem map {f : α → β} {Q : β → Prop} (hm : Asks K (fun a => Q (f a)) m) : Asks K Q (f <$> m) := by
  rw [map_eq_pure_bind]
  exact hm.bind fun a ha => pure ha

theorem attempt (h : Asks K Q m) : Asks K (fun x => ∀ a, x = .ok a → Q a) m.attempt := by
  intro log
  have hm := h log
  rw [Call.attempt]
  cases hrun : m log with
  | ok a log' =>
    rw [hrun] at hm
    exact ⟨hm.1, fun b hb => by cases hb; exact hm.2⟩
  | error e log' =>
    rw [hrun] at hm
    exact ⟨hm, fun b hb => by cases hb⟩

/-- One call after the other, for the elements of a list. -/
theorem mapM {f : β → Call ε R α} {Q : β → α → Prop} {l : List β}
    (h : ∀ b ∈ l, Asks K (Q b) (f b)) : Asks K (List.Forall₂ Q l) (l.mapM f) := by
  induction l with
  | nil => exact pure .nil
  | cons b l ih =>
    rw [List.mapM_cons]
    refine (h b List.mem_cons_self).bind fun a ha => ?_
    refine (ih fun b' hb' => h b' (List.mem_cons_of_mem _ hb')).bind fun as has => ?_
    exact pure (.cons ha has)

/-- A loop over a list, with an invariant that knows what is left of it. -/
theorem foldlM {f : S → β → Call ε R S} {I : List β → S → Prop} {l : List β}
    (h : ∀ s b rest, I (b :: rest) s → Asks K (I rest) (f s b)) {s : S} (hs : I l s) :
    Asks K (I []) (l.foldlM f s) := by
  induction l generalizing s with
  | nil => exact pure hs
  | cons b l ih =>
    rw [List.foldlM_cons]
    exact (h s b l hs).bind fun s' hs' => ih hs'

/-- **A loop whose body keeps an invariant and lowers a variant ends**, and its result does not
depend on the fuel. -/
theorem loop {body : S → Call ε R (α ⊕ S)} {I : S → Prop} {variant : S → ℕ}
    (hbody : ∀ s, I s →
      Asks K (Sum.elim Q fun s' => I s' ∧ variant s' < variant s) (body s))
    {s : S} (hs : I s) (log : List R) :
    ∃ result, Meets K Q log result ∧
      ∀ fuel, variant s < fuel → Call.loop body fuel s log = some result := by
  -- by induction on the variant
  induction hn : variant s using Nat.strong_induction_on generalizing s log with
  | _ n ih =>
    have hm := hbody s hs log
    have hunfold : ∀ fuel, n < fuel → ∃ left, fuel = left + 1 ∧ n ≤ left :=
      fun fuel hfuel => ⟨fuel - 1, by omega, by omega⟩
    cases hrun : body s log with
    | ok x log' =>
      rw [hrun] at hm
      cases x with
      | inl a =>
        refine ⟨.ok a log', hm, fun fuel hfuel => ?_⟩
        obtain ⟨left, rfl, -⟩ := hunfold fuel hfuel
        rw [Call.loop, hrun]
      | inr s' =>
        obtain ⟨hlog, hs', hlt⟩ := hm
        obtain ⟨result, hres, hloop⟩ := ih (variant s') (hn ▸ hlt) hs' log' rfl
        refine ⟨result, hres.of_extends hlog, fun fuel hfuel => ?_⟩
        obtain ⟨left, rfl, hleft⟩ := hunfold fuel hfuel
        rw [Call.loop, hrun]
        exact hloop left (by omega)
    | error e log' =>
      rw [hrun] at hm
      refine ⟨.error e log', hm, fun fuel hfuel => ?_⟩
      obtain ⟨left, rfl, -⟩ := hunfold fuel hfuel
      rw [Call.loop, hrun]

end Asks

end Call
