import PyrallelConsumer.Lib.Dict
import Mathlib.Data.List.Induction

/-!
# PyrallelConsumer.Lib.Grouping

Keyed values collected into groups, one group a key, in the order in which the keys first appear, and an
operation that takes a key with a batch of its values.

* `Batchable` — what makes the batches of different keys independent.
* `foldl_groupAll` — then serving the groups does what serving the values one by one does.
-/

namespace PyrallelConsumer

variable {σ κ α : Type} [DecidableEq κ]

/-- `groups.setdefault(key, []).append(value)`. -/
def addToGroup (groups : Dict κ (List α)) (e : κ × α) : Dict κ (List α) :=
  groups.set e.1 ((groups.get? e.1).getD [] ++ [e.2])

def groupAll (l : List (κ × α)) : Dict κ (List α) := l.foldl addToGroup .empty

/-- An operation on states with `Inv` and keys with `Key`: a batch can be served in two parts, and once a
key is open a single value of it can be served before or after a batch of another key. -/
structure Batchable (op : σ → κ → List α → σ) (Inv : σ → Prop) (Key : κ → Prop) (Open : σ → κ → Prop) :
    Prop where
  keeps : ∀ {s k} (xs), Inv s → Key k → Inv (op s k xs)
  opens : ∀ {s k xs}, Inv s → Key k → xs ≠ [] → Open (op s k xs) k
  stays : ∀ {s k j} (xs), Inv s → Key k → Open s j → Open (op s k xs) j
  append : ∀ {s k xs} (x), Inv s → Key k → xs ≠ [] → op s k (xs ++ [x]) = op (op s k xs) k [x]
  comm : ∀ {s k j} (x) (ys), Inv s → Key k → Key j → Open s k → j ≠ k →
    op (op s k [x]) j ys = op (op s j ys) k [x]

/-! ## The groups -/

theorem setEntry_of_lookup_none {l : List (κ × α)} {k : κ} {v : α} (h : lookup l k = none) :
    setEntry k v l = l ++ [(k, v)] := by
  induction l with
  | nil => rfl
  | cons e l ih =>
    obtain ⟨a, w⟩ := e
    by_cases ha : a = k
    · simp [lookup, ha] at h
    · have hl : lookup l k = none := by simpa [lookup, ha] using h
      simp [setEntry, ha, ih hl]

/-- Where the key is, an assignment replaces its value. -/
theorem setEntry_split {l : List (κ × α)} {k : κ} {v w : α} (hn : (l.map Prod.fst).Nodup) (h : lookup l k = some w) :
    ∃ pre post, l = pre ++ (k, w) :: post ∧ setEntry k v l = pre ++ (k, v) :: post ∧ ∀ e ∈ post, e.1 ≠ k := by
  induction l with
  | nil => cases h
  | cons e l ih =>
    obtain ⟨a, u⟩ := e
    obtain ⟨ha, hn⟩ := List.nodup_cons.mp hn
    by_cases hk : a = k
    · subst hk
      have hu : u = w := by simpa [lookup] using h
      refine ⟨[], l, by simp [hu], by simp [setEntry], fun e he heq => ha ?_⟩
      exact List.mem_map.mpr ⟨e, he, heq⟩
    · have hl : lookup l k = some w := by simpa [lookup, hk] using h
      obtain ⟨pre, post, hl, hset, hpost⟩ := ih hn hl
      exact ⟨(a, u) :: pre, post, by simp [hl], by simp [setEntry, hk, hset], hpost⟩

theorem groupAll_concat (l : List (κ × α)) (e : κ × α) : groupAll (l ++ [e]) = addToGroup (groupAll l) e := by
  unfold groupAll
  rw [List.foldl_append]
  rfl

/-- No group is empty, and every group is one of a key of the list. -/
theorem mem_groupAll (l : List (κ × α)) :
    ∀ g ∈ (groupAll l).entries, g.2 ≠ [] ∧ ∃ e ∈ l, e.1 = g.1 := by
  induction l using List.reverseRecOn with
  | nil => intro g hg; cases hg
  | append_singleton l e ih =>
    intro g hg
    rw [groupAll_concat] at hg
    have hget := (Dict.mem_entries_iff _).mp hg
    rw [addToGroup, Dict.get?_set] at hget
    split at hget
    · rename_i hk
      have hvalues := Option.some.inj hget
      exact ⟨by simp [← hvalues], e, by simp, hk⟩
    · obtain ⟨hne, e', he', hk⟩ := ih g ((Dict.mem_entries_iff _).mpr hget)
      exact ⟨hne, e', List.mem_append_left _ he', hk⟩

/-- A group holds the values of its key in their order. -/
theorem get?_groupAll (l : List (κ × α)) (k : κ) :
    ((groupAll l).get? k).getD [] = (l.filter fun e => e.1 = k).map Prod.snd := by
  induction l using List.reverseRecOn with
  | nil => rfl
  | append_singleton l e ih =>
    rw [groupAll_concat, addToGroup, Dict.get?_set, List.filter_append, List.map_append]
    by_cases hk : e.1 = k
    · rw [if_pos hk, Option.getD_some, hk, ih]
      simp [hk]
    · rw [if_neg hk, ih]
      simp [hk]

/-- The groups hold the values of the list. -/
theorem exists_groupAll_iff {l : List (κ × α)} {k : κ} {x : α} :
    (∃ g ∈ (groupAll l).entries, g.1 = k ∧ x ∈ g.2) ↔ (k, x) ∈ l := by
  have hfilter : x ∈ (l.filter fun e => e.1 = k).map Prod.snd ↔ (k, x) ∈ l := by
    simp only [List.mem_map, List.mem_filter, decide_eq_true_eq]
    constructor
    · rintro ⟨⟨k', x'⟩, ⟨he, rfl⟩, rfl⟩
      exact he
    · intro he
      exact ⟨(k, x), ⟨he, rfl⟩, rfl⟩
  rw [← hfilter, ← get?_groupAll]
  constructor
  · rintro ⟨⟨k', xs⟩, hg, rfl, hx⟩
    rw [(Dict.mem_entries_iff _).mp hg]
    exact hx
  · intro hx
    cases hget : (groupAll l).get? k with
    | none => simp [hget] at hx
    | some xs =>
      rw [hget] at hx
      exact ⟨(k, xs), (Dict.mem_entries_iff _).mpr hget, rfl, hx⟩

/-! ## Serving the groups -/

section

variable {op : σ → κ → List α → σ} {Inv : σ → Prop} {Key : κ → Prop} {Open : σ → κ → Prop}

omit [DecidableEq κ] in
/-- A value of an open key can be served after the groups of other keys. -/
theorem Batchable.foldl_comm (h : Batchable op Inv Key Open) {k : κ} (x : α) (hk : Key k)
    (groups : List (κ × List α)) :
    ∀ {s : σ}, Inv s → Open s k → (∀ g ∈ groups, Key g.1 ∧ g.1 ≠ k) →
      groups.foldl (fun s g => op s g.1 g.2) (op s k [x]) =
        op (groups.foldl (fun s g => op s g.1 g.2) s) k [x] := by
  induction groups with
  | nil => intro s _ _ _; rfl
  | cons g groups ih =>
    intro s hs hopen hgroups
    obtain ⟨hkey, hne⟩ := hgroups g List.mem_cons_self
    rw [List.foldl_cons, List.foldl_cons, h.comm x g.2 hs hk hkey hopen hne]
    exact ih (h.keeps _ hs hkey) (h.stays _ hs hkey hopen) fun g' hg' => hgroups g' (List.mem_cons_of_mem _ hg')

omit [DecidableEq κ] in
theorem Batchable.foldl_keeps (h : Batchable op Inv Key Open) (groups : List (κ × List α)) :
    ∀ {s : σ}, Inv s → (∀ g ∈ groups, Key g.1) → Inv (groups.foldl (fun s g => op s g.1 g.2) s) := by
  induction groups with
  | nil => intro s hs _; exact hs
  | cons g groups ih =>
    intro s hs hgroups
    exact ih (h.keeps _ hs (hgroups g List.mem_cons_self)) fun g' hg' => hgroups g' (List.mem_cons_of_mem _ hg')

/-- Serving the groups does what serving the values one by one does. -/
theorem Batchable.foldl_groupAll (h : Batchable op Inv Key Open) {s : σ} (hs : Inv s) (l : List (κ × α))
    (hl : ∀ e ∈ l, Key e.1) :
    (groupAll l).entries.foldl (fun s g => op s g.1 g.2) s = l.foldl (fun s e => op s e.1 [e.2]) s := by
  induction l using List.reverseRecOn with
  | nil => rfl
  | append_singleton l e ih =>
    have hkey : Key e.1 := hl e (by simp)
    have ih := ih fun e' he' => hl e' (List.mem_append_left _ he')
    have hgroups : ∀ g ∈ (groupAll l).entries, Key g.1 := by
      intro g hg
      obtain ⟨-, e', he', hk⟩ := mem_groupAll l g hg
      exact hk ▸ hl e' (List.mem_append_left _ he')
    rw [List.foldl_append, ← ih, groupAll_concat]
    show (setEntry e.1 _ (groupAll l).entries).foldl (fun s g => op s g.1 g.2) s = op _ e.1 [e.2]
    cases hget : (groupAll l).get? e.1 with
    | none =>
      -- the first value of its key: a new group at the end
      rw [setEntry_of_lookup_none hget, List.foldl_append]
      rfl
    | some xs =>
      -- the value joins its group, and is served after the groups that follow
      obtain ⟨pre, post, hsplit, hset, hpost⟩ :=
        setEntry_split (v := xs ++ [e.2]) (groupAll l).nodup hget
      have hxs : xs ≠ [] := (mem_groupAll l _ ((Dict.mem_entries_iff _).mpr hget)).1
      rw [hsplit] at hgroups
      have hpre := h.foldl_keeps pre hs fun g hg => hgroups g (List.mem_append_left _ hg)
      have hpost : ∀ g ∈ post, Key g.1 ∧ g.1 ≠ e.1 := fun g hg =>
        ⟨hgroups g (List.mem_append_right _ (List.mem_cons_of_mem _ hg)), hpost g hg⟩
      rw [Option.getD_some, hset, hsplit]
      simp only [List.foldl_append, List.foldl_cons]
      rw [h.append e.2 hpre hkey hxs]
      exact h.foldl_comm e.2 hkey post (h.keeps _ hpre hkey) (h.opens hpre hkey hxs) hpost

end

end PyrallelConsumer
