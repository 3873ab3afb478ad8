import Vgi.Lib.Gather

/-!
# Rows grouped by a key

`Grouping.ofRows key n` goes through the rows `0`, …, `n - 1` and gives each of them the number of its key, in
the order in which the keys first come; `reps` are the rows they first come with. Rows of data are grouped through
their indices: those at `reps` are the rows that are the first with their keys (`takeRows_reps`), and each row
has, under its number, one with its own key (`exists_rep`).
-/

namespace Vgi

open List Option

variable {α κ : Type*} [DecidableEq κ]

/-- Those that are the first with their keys. -/
def firstsBy (key : α → κ) : List α → List α
  | [] => []
  | x :: l => x :: (firstsBy key l).filter fun y => key y ≠ key x

section FirstsBy

variable {key : α → κ} {l : List α}

theorem firstsBy_sublist (key : α → κ) (l : List α) : (firstsBy key l).Sublist l := by
  induction l with
  | nil => exact .slnil
  | cons x l ih => exact (filter_sublist.trans ih).cons_cons x

theorem mem_of_mem_firstsBy {x : α} (h : x ∈ firstsBy key l) : x ∈ l := (firstsBy_sublist key l).subset h

theorem nodup_map_firstsBy (key : α → κ) (l : List α) : ((firstsBy key l).map key).Nodup := by
  induction l with
  | nil => exact nodup_nil
  | cons y l ih =>
    rw [firstsBy, map_cons, nodup_cons]
    refine ⟨fun hmem => ?_, ih.sublist (filter_sublist.map key)⟩
    obtain ⟨x, hx, hkey⟩ := List.mem_map.1 hmem
    exact of_decide_eq_true (mem_filter.1 hx).2 hkey

theorem exists_mem_firstsBy (key : α → κ) {x : α} (h : x ∈ l) : ∃ y ∈ firstsBy key l, key y = key x := by
  induction l with
  | nil => exact absurd h not_mem_nil
  | cons z l ih =>
    rw [firstsBy]
    by_cases hz : key x = key z
    · exact ⟨z, mem_cons_self, hz.symm⟩
    · obtain ⟨y, hy, hkey⟩ := ih ((mem_cons.1 h).resolve_left fun heq => hz (heq ▸ rfl))
      exact ⟨y, mem_cons_of_mem z (mem_filter.2 ⟨hy, decide_eq_true (hkey ▸ hz)⟩), hkey⟩

theorem eq_of_mem_firstsBy {x y : α} (hx : x ∈ firstsBy key l) (hy : y ∈ firstsBy key l)
    (hkey : key x = key y) : x = y :=
  inj_on_of_nodup_map (nodup_map_firstsBy key l) hx hy hkey

/-- One more is kept if no other has its key. -/
theorem firstsBy_append_singleton (key : α → κ) (l : List α) (x : α) :
    firstsBy key (l ++ [x]) = firstsBy key l ++ if ∃ y ∈ l, key y = key x then [] else [x] := by
  induction l with
  | nil => simp [firstsBy]
  | cons z l ih =>
    rw [cons_append, firstsBy, ih, filter_append, firstsBy, cons_append]
    congr 2
    by_cases hl : ∃ y ∈ l, key y = key x
    · obtain ⟨y, hy, hkey⟩ := hl
      rw [if_pos ⟨y, hy, hkey⟩, if_pos ⟨y, mem_cons_of_mem z hy, hkey⟩]
      rfl
    · rw [if_neg hl]
      by_cases hz : key z = key x
      · rw [if_pos ⟨z, mem_cons_self, hz⟩, filter_singleton, hz]
        simp
      · rw [if_neg (by simpa [hz] using hl), filter_singleton]
        simp [Ne.symm hz]

/-- Keys of images that are the same exactly if those of the originals are. -/
theorem map_firstsBy {β κ' : Type*} [DecidableEq κ'] (key' : β → κ') (g : α → β)
    (h : ∀ x y, key' (g x) = key' (g y) ↔ key x = key y) : (firstsBy key l).map g = firstsBy key' (l.map g) := by
  induction l with
  | nil => rfl
  | cons x l ih =>
    rw [map_cons, firstsBy, firstsBy, map_cons, ← ih, List.filter_map]
    congr 3
    funext y
    simp [h y x]

end FirstsBy

structure Grouping where
  reps : List ℕ := []
  ids : List ℕ := []

namespace Grouping

variable (key : ℕ → κ)

/-- The next row gets the number of its key, or the next one. -/
def add (g : Grouping) (row : ℕ) : Grouping :=
  match g.reps.findIdx? fun r => key r = key row with
  | some id => { g with ids := g.ids ++ [id] }
  | none => { reps := g.reps ++ [row], ids := g.ids ++ [g.reps.length] }

def ofRows (n : ℕ) : Grouping := (List.range n).foldl (add key) {}

theorem ofRows_succ (n : ℕ) : ofRows key (n + 1) = (ofRows key n).add key n := by
  rw [ofRows, range_succ, foldl_append]
  rfl

theorem reps_ofRows (n : ℕ) : (ofRows key n).reps = firstsBy key (List.range n) := by
  induction n with
  | zero => rfl
  | succ n ih =>
    rw [ofRows_succ, add, range_succ, firstsBy_append_singleton, ← ih]
    rcases hid : (ofRows key n).reps.findIdx? (fun r => decide (key r = key n)) with _ | id
    · rw [if_neg]
      rintro ⟨y, hy, hkey⟩
      obtain ⟨r, hr, hrk⟩ := exists_mem_firstsBy key hy
      rw [← ih] at hr
      exact absurd (hrk.trans hkey) (of_decide_eq_false (findIdx?_eq_none_iff.1 hid r hr))
    · obtain ⟨hlt, hsm, -⟩ := findIdx?_eq_some_iff_getElem.1 hid
      have hmem : (ofRows key n).reps[id] ∈ firstsBy key (List.range n) := by
        rw [← ih]
        exact getElem_mem hlt
      rw [if_pos ⟨_, mem_of_mem_firstsBy hmem, of_decide_eq_true hsm⟩, append_nil]

/-- A row gets a number under which there is one with its key, and the numbers given before stay. -/
theorem add_spec (g : Grouping) (row : ℕ) :
    (∃ (id r : ℕ), (g.add key row).ids = g.ids ++ [id] ∧ (g.add key row).reps[id]? = some r ∧ key r = key row) ∧
      ∀ d r : ℕ, g.reps[d]? = some r → (g.add key row).reps[d]? = some r := by
  rw [add]
  rcases hid : g.reps.findIdx? (fun r => decide (key r = key row)) with _ | id
  · refine ⟨⟨g.reps.length, row, rfl, getElem?_concat_length .., rfl⟩, fun d r hr => ?_⟩
    rw [getElem?_append_left (List.getElem?_eq_some_iff.1 hr).1, hr]
  · obtain ⟨hlt, hsm, -⟩ := findIdx?_eq_some_iff_getElem.1 hid
    exact ⟨⟨id, _, rfl, getElem?_eq_getElem hlt, of_decide_eq_true hsm⟩, fun d r hr => hr⟩

theorem exists_rep (n : ℕ) : (ofRows key n).ids.length = n ∧ ∀ i < n, ∃ d r,
      (ofRows key n).ids[i]? = some d ∧ (ofRows key n).reps[d]? = some r ∧ key r = key i := by
  induction n with
  | zero => exact ⟨rfl, fun i hi => absurd hi (Nat.not_lt_zero i)⟩
  | succ n ih =>
    obtain ⟨hlen, hrp⟩ := ih
    rw [ofRows_succ]
    obtain ⟨⟨id, r, hids, hid, hkey⟩, hkp⟩ := add_spec key (ofRows key n) n
    rw [hids]
    refine ⟨by rw [length_append, hlen, length_singleton], fun i hi => ?_⟩
    rcases Nat.lt_succ_iff_lt_or_eq.1 hi with hi | rfl
    · obtain ⟨d, r, hd, hr, hkey⟩ := hrp i hi
      exact ⟨d, r, by rw [getElem?_append_left (hlen.symm ▸ hi), hd], hkp d r hr, hkey⟩
    · refine ⟨id, r, ?_, hid, hkey⟩
      rw [getElem?_append_right hlen.le, hlen, Nat.sub_self]
      rfl

end Grouping

/-- The rows at the representatives are those that are the first with their keys. -/
theorem takeRows_reps (key : α → κ) (rows : List α) :
    takeRows rows (Grouping.ofRows (fun i => rows[i]?.map key) rows.length).reps = some (firstsBy key rows) := by
  have hidx := map_firstsBy (l := List.range rows.length) (Option.map key) (rows[·]?) fun _ _ => Iff.rfl
  have hsm : (firstsBy key rows).map some = firstsBy (Option.map key) (rows.map some) :=
    map_firstsBy (Option.map key) some fun _ _ => some_inj
  rw [Grouping.reps_ofRows, takeRows_eq_some, hsm, hidx, range_eq_range',
    map_range'_getElem? (Nat.zero_add _).le, drop_zero, take_length]

/-- Each row finds, under its number, what the first row with its key has. -/
theorem exists_takeRows_ids {β : Type*} (key : α → κ) (rows : List α) (f : α → β) :
    ∃ out, takeRows ((firstsBy key rows).map f)
        (Grouping.ofRows (fun i => rows[i]?.map key) rows.length).ids = some out ∧
      List.Forall₂ (fun x v => ∃ y ∈ firstsBy key rows, key y = key x ∧ v = f y) rows out := by
  obtain ⟨hlen, hrp⟩ := Grouping.exists_rep (fun i => rows[i]?.map key) rows.length
  have hfr := takeRows_eq_some.1 (takeRows_reps key rows)
  generalize Grouping.ofRows (fun i => rows[i]?.map key) rows.length = g at *
  have hfn i (hi : i < rows.length) : ∃ d y, g.ids[i]? = some d ∧ (firstsBy key rows)[d]? = some y ∧
      key y = key rows[i] := by
    obtain ⟨d, r, hd, hr, hkey⟩ := hrp i hi
    have hy := congrArg (·[d]?) hfr
    simp only [getElem?_map, hr, map_some] at hy
    rw [getElem?_eq_getElem hi, map_some] at hkey
    obtain ⟨y, hrow, hkey⟩ := map_eq_some_iff.1 hkey
    rw [hrow] at hy
    obtain ⟨z, hz, hzy⟩ := map_eq_some_iff.1 hy.symm
    exact ⟨d, y, hd, hz.trans hzy, hkey⟩
  obtain ⟨out, hout⟩ := exists_map_some (f := (((firstsBy key rows).map f)[·]?)) fun d hd => by
    obtain ⟨i, hi, rfl⟩ := getElem_of_mem hd
    obtain ⟨d, y, hd, hy, -⟩ := hfn i (hlen ▸ hi)
    obtain rfl := some.inj ((getElem?_eq_getElem hi).symm.trans hd)
    rw [getElem?_map, hy]
    rfl
  refine ⟨out, takeRows_eq_some.2 hout.symm, forall₂_iff_get.2 ⟨?_, fun i hi hi' => ?_⟩⟩
  · have h := congrArg List.length hout
    rw [length_map, length_map, hlen] at h
    exact h.symm
  · obtain ⟨d, y, hd, hy, hkey⟩ := hfn i hi
    refine ⟨y, mem_of_getElem? hy, hkey, ?_⟩
    have h := congrArg (·[i]?) hout
    simp only [getElem?_map, hd, hy, map_some, getElem?_eq_getElem hi', some_inj] at h
    exact h

end Vgi
