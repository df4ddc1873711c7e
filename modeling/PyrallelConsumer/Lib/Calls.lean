import PyrallelConsumer.Lib.Refinement

/-!
# PyrallelConsumer.Lib.Calls

A client beside a server. A step of the client makes calls, and the server takes steps during it that answer
them in order. Between the steps of the client the server takes steps that answer no call.

* `Server` — a machine whose steps answer calls.
* `beside` — client and server as one machine.
* `client_reachable`, `server_reachable` — each of them runs as it may run alone.
* `CallSteps` — steps of a client with the calls that they make.
* `beside_refines` — a client that refines another one refines it beside every server.
-/

namespace PyrallelConsumer

/-- A machine whose steps answer calls, each at most one. -/
structure Server (τ β γ : Type) extends Machine τ β where
  answer : τ → β → Option γ

namespace Server

variable {τ β γ : Type} (S : Server τ β γ)

/-- The calls that the steps answer, in order. -/
def answers : τ → List β → List γ
  | _, [] => []
  | t, b :: l => (S.answer t b).toList ++ answers (S.next t b) l

/-- The steps that answer a list of calls answer its first part first. -/
theorem answers_split (l : List β) : ∀ {t : τ} {calls calls' : List γ}, S.answers t l = calls ++ calls' →
    ∃ l₁ l₂, l = l₁ ++ l₂ ∧ S.answers t l₁ = calls ∧ S.answers (S.run t l₁) l₂ = calls' := by
  induction l with
  | nil =>
    intro t calls calls' h
    obtain ⟨rfl, rfl⟩ := List.append_eq_nil_iff.mp h.symm
    exact ⟨[], [], rfl, rfl, rfl⟩
  | cons b l ih =>
    intro t calls calls' h
    cases calls with
    | nil => exact ⟨[], b :: l, rfl, rfl, h⟩
    | cons call calls =>
      rw [answers] at h
      cases hanswer : S.answer t b with
      | none =>
        rw [hanswer] at h
        obtain ⟨l₁, l₂, rfl, h₁, h₂⟩ := ih (h : S.answers (S.next t b) l = (call :: calls) ++ calls')
        exact ⟨b :: l₁, l₂, rfl, by rw [answers, hanswer, h₁]; rfl, h₂⟩
      | some call' =>
        rw [hanswer] at h
        obtain ⟨rfl, hrest⟩ := List.cons_eq_cons.mp h
        obtain ⟨l₁, l₂, rfl, h₁, h₂⟩ := ih hrest
        exact ⟨b :: l₁, l₂, rfl, by rw [answers, hanswer, h₁]; rfl, h₂⟩

/-- The step that answers the first call. -/
theorem answers_cons (l : List β) : ∀ {t : τ} {call : γ} {calls : List γ}, S.answers t l = call :: calls →
    ∃ l₁ b l₂, l = l₁ ++ b :: l₂ ∧ S.answers t l₁ = [] ∧ S.answer (S.run t l₁) b = some call := by
  induction l with
  | nil => intro t call calls h; cases h
  | cons b l ih =>
    intro t call calls h
    rw [answers] at h
    cases hanswer : S.answer t b with
    | none =>
      rw [hanswer] at h
      obtain ⟨l₁, b', l₂, rfl, h₁, hb'⟩ := ih (h : S.answers (S.next t b) l = call :: calls)
      exact ⟨b :: l₁, b', l₂, rfl, by rw [answers, hanswer, h₁]; rfl, hb'⟩
    | some call' =>
      rw [hanswer] at h
      obtain ⟨rfl, -⟩ := List.cons_eq_cons.mp h
      exact ⟨[], b, l, rfl, rfl, hanswer⟩

/-- A record of the calls that are answered. -/
theorem record_run {δ : Type} (f : τ → List δ) (g : γ → List δ)
    (h : ∀ t b, f (S.next t b) = f t ++ (S.answer t b).toList.flatMap g) (l : List β) :
    ∀ t, f (S.run t l) = f t ++ (S.answers t l).flatMap g := by
  induction l with
  | nil => intro t; exact (List.append_nil _).symm
  | cons b l ih =>
    intro t
    rw [answers, List.flatMap_append, ← List.append_assoc, ← h]
    exact ih _

end Server

/-! ## Client and server -/

structure Beside (σ τ : Type) where
  client : σ
  server : τ

/-- A step of the client with the steps of the server during it, or a step of the server. -/
inductive BesideAction (α β : Type) where
  | client (a : α) (during : List β)
  | server (b : β)

section Beside

variable {σ σ' α α' τ β γ : Type}

def beside (M : Machine σ α) (calls : σ → α → List γ) (S : Server τ β γ) : Machine (Beside σ τ) (BesideAction α β) where
  init s := M.init s.client ∧ S.init s.server
  enabled s a :=
    match a with
    | .client a during => M.enabled s.client a ∧ S.Allowed (fun _ _ => True) s.server during ∧
        S.answers s.server during = calls s.client a
    | .server b => S.enabled s.server b ∧ S.answer s.server b = none
  next s a :=
    match a with
    | .client a during => ⟨M.next s.client a, S.run s.server during⟩
    | .server b => { s with server := S.next s.server b }

/-- The client's steps meet `p`, the server's meet `q`. -/
def BesideOk (S : Server τ β γ) (p : σ → α → Prop) (q : τ → β → Prop) (s : Beside σ τ) : BesideAction α β → Prop
  | .client a during => p s.client a ∧ S.Allowed q s.server during
  | .server b => q s.server b

variable {M : Machine σ α} {M' : Machine σ' α'} {calls : σ → α → List γ} {calls' : σ' → α' → List γ}
  {S : Server τ β γ} {p : σ → α → Prop} {p' : σ' → α' → Prop} {q : τ → β → Prop} {s : Beside σ τ}

/-- A run of which nothing is asked. -/
theorem besideOk_of_reachable (h : (beside M calls S).Reachable s) :
    (beside M calls S).ReachableBy (BesideOk S (fun _ _ => True) fun _ _ => True) s := by
  induction h with
  | start hi => exact .start hi
  | @next s a _ he _ ih =>
    refine .next ih he ?_
    cases a with
    | client a during => exact ⟨trivial, he.2.1⟩
    | server b => trivial

theorem client_reachable (h : (beside M calls S).ReachableBy (BesideOk S p q) s) : M.ReachableBy p s.client := by
  refine Machine.reachable_of_refines Beside.client (fun _ (hi : _ ∧ _) => hi.1) (fun s a _ he hok => ?_) h
  cases a with
  | client a during => exact .single he.1 hok.1
  | server b => exact .refl

theorem allowed_of_meets (l : List β) : ∀ {t : τ}, S.Allowed q t l → S.Allowed (fun _ _ => True) t l := by
  induction l with
  | nil => exact id
  | cons b l ih => exact fun h => ⟨h.1, trivial, ih h.2.2⟩

theorem server_reachable (h : (beside M calls S).ReachableBy (BesideOk S p q) s) : S.ReachableBy q s.server := by
  refine Machine.reachable_of_refines Beside.server (fun _ (hi : _ ∧ _) => hi.2) (fun s a _ he hok => ?_) h
  cases a with
  | client a during => exact .of_allowed during hok.2
  | server b => exact .single he.1 hok

/-! ## Refined clients -/

/-- Steps of a client that meet `p`, with the calls that they make. -/
inductive CallSteps (M : Machine σ α) (calls : σ → α → List γ) (p : σ → α → Prop) : σ → σ → List γ → Prop where
  | refl {s : σ} : CallSteps M calls p s s []
  | cons {s s' : σ} {a : α} {l : List γ} : M.enabled s a → p s a → CallSteps M calls p (M.next s a) s' l →
      CallSteps M calls p s s' (calls s a ++ l)

namespace CallSteps

variable {s s' s'' : σ} {l l' : List γ}

theorem single {a : α} (he : M.enabled s a) (hp : p s a) : CallSteps M calls p s (M.next s a) (calls s a) := by
  have h : CallSteps M calls p s (M.next s a) (calls s a ++ []) := .cons he hp .refl
  rwa [List.append_nil] at h

theorem trans (h : CallSteps M calls p s s' l) (h' : CallSteps M calls p s' s'' l') :
    CallSteps M calls p s s'' (l ++ l') := by
  induction h with
  | refl => exact h'
  | cons he hp _ ih =>
    rw [List.append_assoc]
    exact .cons he hp (ih h')

/-- Steps of the server that answer nothing. -/
theorem idle (s : σ) (during : List β) : ∀ {t : τ}, S.Allowed q t during → S.answers t during = [] →
    Machine.Steps (beside M calls S) (BesideOk S p q) ⟨s, t⟩ ⟨s, S.run t during⟩ := by
  induction during with
  | nil => intro t _ _; exact .refl
  | cons b during ih =>
    intro t hallowed hnone
    obtain ⟨hb, hrest⟩ := List.append_eq_nil_iff.mp hnone
    have hanswer : S.answer t b = none := by
      cases h : S.answer t b with
      | none => rfl
      | some call =>
        rw [h] at hb
        cases hb
    exact .cons (b := .server b) ⟨hallowed.1, hanswer⟩ hallowed.2.1 (ih hallowed.2.2 hrest)

/-- The steps of a client, with a server that answers their calls. -/
theorem beside (h : CallSteps M calls p s s' l) : ∀ {t : τ} {during : List β}, S.Allowed q t during →
    S.answers t during = l →
    Machine.Steps (beside M calls S) (BesideOk S p q) ⟨s, t⟩ ⟨s', S.run t during⟩ := by
  induction h with
  | refl => exact fun hallowed hanswers => idle _ _ hallowed hanswers
  | @cons s s' a l he hp _ ih =>
    intro t during hallowed hanswers
    obtain ⟨l₁, l₂, rfl, h₁, h₂⟩ := S.answers_split during hanswers
    obtain ⟨hallowed₁, hallowed₂⟩ := Machine.allowed_append hallowed
    have hrun : S.run t (l₁ ++ l₂) = S.run (S.run t l₁) l₂ := List.foldl_append
    rw [hrun]
    exact .cons (b := .client a l₁) ⟨he, allowed_of_meets l₁ hallowed₁, h₁⟩ ⟨hp, hallowed₁⟩ (ih hallowed₂ h₂)

end CallSteps

/-- **Refinement beside a server.** Every step of `M` is a sequence of steps of `M'` that make the same calls. -/
theorem beside_refines (f : σ → σ') (h0 : ∀ s, M.init s → M'.init (f s))
    (hs : ∀ s a, M.ReachableBy p s → M.enabled s a → p s a → CallSteps M' calls' p' (f s) (f (M.next s a)) (calls s a))
    (h : (beside M calls S).ReachableBy (BesideOk S p q) s) :
    (beside M' calls' S).ReachableBy (BesideOk S p' q) ⟨f s.client, s.server⟩ := by
  let pair (s : Beside σ τ) : Beside σ' τ := ⟨f s.client, s.server⟩
  have hinit : ∀ s, (beside M calls S).init s → (beside M' calls' S).init (pair s) := fun s hi => ⟨h0 _ hi.1, hi.2⟩
  refine Machine.reachable_of_refines pair hinit (fun s a hr he hok => ?_) h
  cases a with
  | client a during => exact (hs _ a (client_reachable hr) he.1 hok.1).beside hok.2 he.2.2
  | server b => exact .single (b := BesideAction.server b) he hok

end Beside

end PyrallelConsumer
