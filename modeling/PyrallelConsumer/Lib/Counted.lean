import PyrallelConsumer.Lib.Dict

/-!
# PyrallelConsumer.Lib.Counted

Reference-counted locks kept twice: a dictionary of positive counts and the set of locked names. The
pair represents a count function `m` when the dictionary holds exactly the positive values of `m`
and the set exactly the names where `m` is positive.

* `Counted.acquire`, `Counted.release`, `Counted.restrict` — one more holder, one holder less, and
  dropping names altogether.
-/

namespace PyrallelConsumer

section OrderedKeys

variable {α : Type} [DecidableEq α]

/-- `OrderedDict` assignment or `set.add`: a new key goes last, a known one keeps its place. -/
def appendKey (l : List α) (a : α) : List α := if a ∈ l then l else l ++ [a]

def discardKey (l : List α) (a : α) : List α := l.filter (· ≠ a)

@[simp] theorem mem_appendKey {l : List α} {a x : α} : x ∈ appendKey l a ↔ x ∈ l ∨ x = a := by
  unfold appendKey
  split
  · rename_i h
    exact ⟨.inl, fun hx => hx.elim id fun e => e ▸ h⟩
  · simp

@[simp] theorem mem_discardKey {l : List α} {a x : α} : x ∈ discardKey l a ↔ x ∈ l ∧ x ≠ a := by
  simp [discardKey]

theorem mem_discardAll {x : α} (ks : List α) :
    ∀ {l : List α}, x ∈ ks.foldl discardKey l ↔ x ∈ l ∧ x ∉ ks := by
  induction ks with
  | nil => intro l; simp
  | cons k ks ih => intro l; rw [List.foldl_cons, ih, mem_discardKey, List.mem_cons, not_or, and_assoc]

end OrderedKeys

/-- The dictionary and the set represent the count function `m`. -/
structure Counted {α : Type} [DecidableEq α] (counts : Dict α Nat) (locked : List α) (m : α → Nat) :
    Prop where
  get?_eq : ∀ a, counts.get? a = if m a = 0 then none else some (m a)
  mem_iff : ∀ a, a ∈ locked ↔ 0 < m a

namespace Counted

variable {α : Type} [DecidableEq α] {counts : Dict α Nat} {locked : List α} {m : α → Nat}

theorem zero : Counted (.empty : Dict α Nat) [] fun _ => 0 :=
  ⟨fun _ => rfl, fun _ => by simp⟩

theorem congr (h : Counted counts locked m) {m' : α → Nat} (hm : ∀ a, m' a = m a) :
    Counted counts locked m' := by
  have : m' = m := funext hm
  exact this ▸ h

theorem getD_eq (h : Counted counts locked m) (a : α) : (counts.get? a).getD 0 = m a := by
  rw [h.get?_eq]
  split
  · rename_i h0; simp [h0]
  · rfl

theorem acquire (h : Counted counts locked m) (a : α) :
    Counted (counts.set a ((counts.get? a).getD 0 + 1)) (appendKey locked a)
      (fun b => if b = a then m b + 1 else m b) := by
  refine ⟨fun b => ?_, fun b => ?_⟩
  · rw [Dict.get?_set, h.getD_eq]
    by_cases hb : b = a
    · subst hb; simp
    · rw [if_neg (Ne.symm hb), if_neg hb]; exact h.get?_eq b
  · rw [mem_appendKey, h.mem_iff]
    by_cases hb : b = a
    · simp [hb]
    · simp [hb]

/-- The last holder removes the name, an earlier one only lowers its count. -/
theorem release (h : Counted counts locked m) {a : α} (ha : 0 < m a) :
    let remaining := (counts.get? a).getD 1 - 1
    (0 < remaining → Counted (counts.set a remaining) locked
      (fun b => if b = a then m b - 1 else m b)) ∧
    (¬ 0 < remaining → Counted (counts.erase a) (discardKey locked a)
      (fun b => if b = a then m b - 1 else m b)) := by
  have hr : (counts.get? a).getD 1 = m a := by rw [h.get?_eq, if_neg (by omega)]; rfl
  simp only [hr]
  refine ⟨fun hpos => ⟨fun b => ?_, fun b => ?_⟩, fun hpos => ⟨fun b => ?_, fun b => ?_⟩⟩
  · rw [Dict.get?_set]
    by_cases hb : b = a
    · subst hb; rw [if_pos rfl, if_pos rfl, if_neg (by omega)]
    · rw [if_neg (Ne.symm hb), if_neg hb]; exact h.get?_eq b
  · rw [h.mem_iff]
    by_cases hb : b = a
    · subst hb; rw [if_pos rfl]; omega
    · rw [if_neg hb]
  · rw [Dict.get?_erase]
    by_cases hb : b = a
    · subst hb; rw [if_pos rfl, if_pos rfl, if_pos (by omega)]
    · rw [if_neg (Ne.symm hb), if_neg hb]; exact h.get?_eq b
  · rw [mem_discardKey, h.mem_iff]
    by_cases hb : b = a
    · subst hb; rw [if_pos rfl]; simp; omega
    · simp [hb]

theorem restrict (h : Counted counts locked m) (p : α → Bool) :
    Counted (counts.filter fun a _ => p a) (locked.filter p) (fun a => if p a then m a else 0) := by
  refine ⟨fun a => ?_, fun a => ?_⟩
  · rw [Dict.get?_filter, h.get?_eq]
    cases hp : p a with
    | true => simp only [if_true]; split <;> simp
    | false => simp only [Bool.false_eq_true, if_false, if_true]; split <;> simp
  · rw [List.mem_filter, h.mem_iff]
    cases hp : p a <;> simp

end Counted

end PyrallelConsumer
