import Mathlib.Data.List.Induction
import Mathlib.Data.List.DropRight
import Mathlib.Tactic.Tauto

/-!
# PyrallelConsumer.Lib.FirstSights

Suppression of repetitions by a memory of bounded size. `firstSights` is what an unbounded memory lets
through: the first element of every key, in order. A memory of size `n` holds the latest `n` keys in the
order of their first sight; it does as well on a list whose repetitions come soon enough.

* `rtake_rtake_concat` — what is remembered depends on what was remembered before.
* `firstSights_concat`, `eraseDups_concat` — one more element.
* `WithinWindow` — every repetition comes while its key is remembered.
-/

namespace PyrallelConsumer

theorem rtake_rtake_concat {β : Type} (n : Nat) (l : List β) (k : β) :
    (l.rtake n ++ [k]).rtake n = (l ++ [k]).rtake n := by
  cases n with
  | zero => simp
  | succ n =>
    rw [List.rtake_concat_succ, List.rtake_concat_succ]
    unfold List.rtake
    rw [List.drop_drop, List.length_drop]
    congr 2
    omega

variable {α β : Type} [DecidableEq β] (key : α → β)

/-- The first element of every key. -/
def firstSights (l : List α) : List α := l.eraseDupsBy fun x y => key x = key y

theorem any_key_eq (kept : List α) (x : α) :
    kept.any (fun b => decide (key x = key b)) = decide (key x ∈ kept.map key) := by
  induction kept with
  | nil => simp
  | cons b kept ih => simp [ih]

theorem eraseDupsBy_loop_concat (l : List α) (x : α) : ∀ kept : List α,
    List.eraseDupsBy.loop (fun a b => decide (key a = key b)) (l ++ [x]) kept =
      if key x ∈ (kept ++ l).map key then List.eraseDupsBy.loop (fun a b => decide (key a = key b)) l kept
      else List.eraseDupsBy.loop (fun a b => decide (key a = key b)) l kept ++ [x] := by
  induction l with
  | nil =>
    intro kept
    by_cases h : key x ∈ kept.map key
    · simp only [List.nil_append, List.append_nil, List.eraseDupsBy.loop, any_key_eq, h, decide_true, if_true]
    · simp [List.eraseDupsBy.loop, any_key_eq, h]
  | cons a l ih =>
    intro kept
    rw [List.cons_append]
    by_cases h : key a ∈ kept.map key
    · -- a repetition of `a` repeats a key that is kept already
      have hmem : key x ∈ (kept ++ a :: l).map key ↔ key x ∈ (kept ++ l).map key := by
        simp only [List.map_append, List.map_cons, List.mem_append, List.mem_cons]
        constructor
        · rintro (hx | hx | hx)
          · exact .inl hx
          · exact .inl (hx ▸ h)
          · exact .inr hx
        · tauto
      simp only [List.eraseDupsBy.loop, any_key_eq, h, decide_true, hmem]
      exact ih kept
    · have hmem : key x ∈ (kept ++ a :: l).map key ↔ key x ∈ (a :: kept ++ l).map key := by
        simp only [List.map_append, List.map_cons, List.mem_append, List.mem_cons]
        tauto
      simp only [List.eraseDupsBy.loop, any_key_eq, h, decide_false, hmem]
      exact ih (a :: kept)

/-- An element is let through when its key is new. -/
theorem firstSights_concat (l : List α) (x : α) :
    firstSights key (l ++ [x]) = if key x ∈ l.map key then firstSights key l else firstSights key l ++ [x] :=
  eraseDupsBy_loop_concat key l x []

theorem eraseDups_concat (l : List β) (k : β) :
    (l ++ [k]).eraseDups = if k ∈ l then l.eraseDups else l.eraseDups ++ [k] := by
  rw [List.eraseDups_append]
  by_cases h : k ∈ l
  · simp [List.removeAll, h]
  · simp [List.removeAll, h, List.eraseDups_cons]

theorem nodup_eraseDups (l : List β) : l.eraseDups.Nodup := by
  induction l using List.reverseRecOn with
  | nil => exact List.nodup_nil
  | append_singleton l k ih =>
    rw [eraseDups_concat]
    split
    · exact ih
    · rename_i h
      refine List.nodup_append.mpr ⟨ih, by simp, fun a ha b hb => ?_⟩
      rw [List.mem_singleton.mp hb]
      rintro rfl
      exact h (List.mem_eraseDups.mp ha)

/-! ## A memory of bounded size -/

/-- A key that comes again is one of the latest `n`. -/
def WithinWindow (n : Nat) (l : List α) : Prop :=
  ∀ i (hi : i < l.length), key l[i] ∈ (l.take i).map key →
    key l[i] ∈ ((l.take i).map key).eraseDups.rtake n

instance (n : Nat) (l : List α) : Decidable (WithinWindow key n l) := by
  unfold WithinWindow
  infer_instance

variable {key} {n : Nat}

theorem WithinWindow.of_append {l post : List α} (h : WithinWindow key n (l ++ post)) : WithinWindow key n l := by
  intro i hi hmem
  have hlen : i < (l ++ post).length := by
    rw [List.length_append]
    omega
  have hget : (l ++ post)[i] = l[i] := List.getElem_append_left hi
  have htake : (l ++ post).take i = l.take i := List.take_append_of_le_length (le_of_lt hi)
  have hall := h i hlen
  rw [hget, htake] at hall
  exact hall hmem

theorem WithinWindow.last {l : List α} {x : α} (h : WithinWindow key n (l ++ [x])) (hx : key x ∈ l.map key) :
    key x ∈ (l.map key).eraseDups.rtake n := by
  have hall := h l.length (by simp)
  simp only [List.getElem_concat_length, List.take_left'] at hall
  exact hall hx

end PyrallelConsumer
