import Vgi.Lib.Bytes

/-!
# File systems with symbolic links

A file system says what there is at each *place*, the list of names that leads to it from the root. A
*path* is a text: its components lead from a directory to a place (`FileSystem.resolve`), where `.` stays,
`..` goes up, and a link leads on along its target; so many links are followed at most. For a file that
is to be created the last name need not be there.

What a path leads to is given by rules (`Leads`), which are what proofs are about:

* `Leads.inside`: if the links in a directory are relative and do not go up, then a path from the
  directory that does not go up stays in it, whatever links it is led through.
* `Leads.congr`: where a path leads depends only on what it comes across.
* `leads_append`: a path leads where its second half leads from where its first half does.
-/

namespace Vgi

open List Function

/-- The names on the way from the root. -/
abbrev FilePlace := List Bytes

/-- What there is at a place. -/
inductive Inode
  | dir | file (content : Bytes) (executable : Bool) | link (target : Bytes)
  deriving DecidableEq

abbrev FileSystem := FilePlace → Option Inode

/-- The names in a path; empty ones are next to a slash. -/
def components (path : Bytes) : List Bytes := path.splitOn 47

def isAbsolute (path : Bytes) : Bool := path.head? = some 47

/-- A component that stays where it is. -/
def isDot (c : Bytes) : Bool := c = [] || c = [46]

/-- The component that goes up. -/
def dotDot : Bytes := [46, 46]

theorem components_append (a b : Bytes) : components (a ++ 47 :: b) = components a ++ components b :=
  splitOn_append_cons_self ..

theorem components_ne_nil (path : Bytes) : components path ≠ [] := splitOn_ne_nil _ _

theorem isAbsolute_append {a : Bytes} (h : a ≠ []) (b : Bytes) : isAbsolute (a ++ b) = isAbsolute a := by
  obtain ⟨c, a, rfl⟩ := exists_cons_of_ne_nil h
  rfl

/-- A component is a part of the path. -/
theorem infix_of_mem_components {path c : Bytes} (h : c ∈ components path) : c <:+: path := by
  -- on both sides of a slash the paths are shorter
  induction hn : path.length using Nat.strong_induction_on generalizing path with
  | _ n ih =>
    by_cases hsl : 47 ∈ path
    · obtain ⟨a, b, rfl⟩ := append_of_mem hsl
      rw [components_append] at h
      rw [length_append, length_cons] at hn
      rcases mem_append.1 h with h | h
      · exact (ih a.length (by omega) h rfl).trans (prefix_append _ _).isInfix
      · exact (ih b.length (by omega) h rfl).trans ((suffix_cons 47 b).trans (suffix_append a _)).isInfix
    · rw [components, splitOn_eq_singleton hsl, mem_singleton] at h
      rw [h]

namespace FileSystem

variable (fs : FileSystem) (create : Bool)

/-- Where the components lead from a directory, links being left to `expand`. -/
def follow (expand : FilePlace → List Bytes → Option FilePlace) : FilePlace → List Bytes → Option FilePlace
  | cur, [] => some cur
  | cur, c :: rest =>
    if fs cur ≠ some .dir then none
    else if isDot c then follow expand cur rest
    else if c = dotDot then follow expand cur.dropLast rest
    else match fs (cur ++ [c]) with
      | none => if create && rest.isEmpty then some (cur ++ [c]) else none
      | some (.link target) =>
        expand (if isAbsolute target then [] else cur) (components target ++ rest)
      | some _ => follow expand (cur ++ [c]) rest

/-- Where the components lead, with so many links at most. -/
def resolve : ℕ → FilePlace → List Bytes → Option FilePlace
  | 0 => fs.follow create fun _ _ => none
  | links + 1 => fs.follow create (resolve links)

/-- The rules by which components lead somewhere. -/
inductive Leads : ℕ → FilePlace → List Bytes → FilePlace → Prop
  | here (links cur) : Leads links cur [] cur
  | stay {links cur c rest q} : fs cur = some .dir → isDot c → Leads links cur rest q →
      Leads links cur (c :: rest) q
  | up {links cur rest q} : fs cur = some .dir → Leads links cur.dropLast rest q →
      Leads links cur (dotDot :: rest) q
  | enter {links cur c rest q i} : fs cur = some .dir → isDot c = false → c ≠ dotDot →
      fs (cur ++ [c]) = some i → (∀ target, i ≠ .link target) → Leads links (cur ++ [c]) rest q →
      Leads links cur (c :: rest) q
  | link {links cur c rest q target} : fs cur = some .dir → isDot c = false → c ≠ dotDot →
      fs (cur ++ [c]) = some (.link target) →
      Leads links (if isAbsolute target then [] else cur) (components target ++ rest) q →
      Leads (links + 1) cur (c :: rest) q
  | missing {links cur c} : create = true → fs cur = some .dir → isDot c = false → c ≠ dotDot →
      fs (cur ++ [c]) = none → Leads links cur [c] (cur ++ [c])

variable {fs create} {comps : List Bytes} {cur q : FilePlace} {links : ℕ}

theorem leads_of_follow {expand : FilePlace → List Bytes → Option FilePlace}
    (hex : ∀ cur c rest q target, fs cur = some .dir → isDot c = false → c ≠ dotDot →
      fs (cur ++ [c]) = some (.link target) →
      expand (if isAbsolute target then [] else cur) (components target ++ rest) = some q →
      Leads fs create links cur (c :: rest) q) (h : fs.follow create expand cur comps = some q) :
    Leads fs create links cur comps q := by
  induction comps generalizing cur with
  | nil =>
    obtain rfl := Option.some.inj h
    exact .here links cur
  | cons c rest ih =>
    by_cases hdir : fs cur = some .dir
    · rw [follow, if_neg (not_not.2 hdir)] at h
      by_cases hdt : isDot c
      · rw [if_pos hdt] at h
        exact .stay hdir hdt (ih h)
      rw [if_neg hdt] at h
      rw [Bool.not_eq_true] at hdt
      by_cases hup : c = dotDot
      · rw [if_pos hup] at h
        subst hup
        exact .up hdir (ih h)
      · rw [if_neg hup] at h
        -- a name: there may be nothing, a link, or something else
        split at h
        · next hno =>
          split_ifs at h with hbt
          obtain ⟨hcr, hls⟩ := Bool.and_eq_true_iff.1 hbt
          obtain rfl := List.isEmpty_iff.1 hls
          obtain rfl := Option.some.inj h
          exact .missing hcr hdir hdt hup hno
        · next target hln => exact hex cur c rest q target hdir hdt hup hln h
        · next i hne hsm => exact .enter hdir hdt hup hsm (fun target ht => hne target ht) (ih h)
    · rw [follow, if_pos hdir] at h
      cases h

theorem leads_of_resolve (h : fs.resolve create links cur comps = some q) : Leads fs create links cur comps q := by
  induction links generalizing cur comps q with
  | zero => exact leads_of_follow (fun _ _ _ _ _ _ _ _ _ hno => by cases hno) h
  | succ links ih => exact leads_of_follow (fun _ _ _ _ _ hdir hdt hup hln hq => .link hdir hdt hup hln (ih hq)) h

/-- One step of the rules, as a function. -/
theorem resolve_cons {c : Bytes} {rest : List Bytes} (hdir : fs cur = some .dir) :
    fs.resolve create links cur (c :: rest) = if isDot c then fs.resolve create links cur rest
      else if c = dotDot then fs.resolve create links cur.dropLast rest
      else match fs (cur ++ [c]) with
        | none => if create && rest.isEmpty then some (cur ++ [c]) else none
        | some (.link target) => match links with
          | 0 => none
          | links + 1 => fs.resolve create links (if isAbsolute target then [] else cur) (components target ++ rest)
        | some _ => fs.resolve create links (cur ++ [c]) rest := by
  rcases links with _ | links <;> rw [resolve, follow, if_neg (not_not.2 hdir)]

theorem Leads.resolve (h : Leads fs create links cur comps q) : fs.resolve create links cur comps = some q := by
  induction h with
  | here links cur => rcases links with _ | links <;> rfl
  | stay hdir hdt _ ih => rw [resolve_cons hdir, if_pos hdt, ih]
  | up hdir _ ih => rw [resolve_cons hdir, if_neg (by decide), if_pos rfl, ih]
  | enter hdir hdt hup hsm hne _ ih =>
    rw [resolve_cons hdir, hdt, if_neg Bool.false_ne_true, if_neg hup, hsm]
    split
    · next hno => cases hno
    · next target htr => exact absurd (Option.some.inj htr) (hne target)
    · exact ih
  | link hdir hdt hup hln _ ih =>
    rw [resolve_cons hdir, hdt, if_neg Bool.false_ne_true, if_neg hup, hln]
    exact ih
  | missing hcr hdir hdt hup hno =>
    rw [resolve_cons hdir, hdt, if_neg Bool.false_ne_true, if_neg hup, hno, hcr]
    rfl

/-! ## Staying in a directory -/

/-- The links in the directory are relative, and do not go up. -/
def Tame (root : FilePlace) (fs : FileSystem) : Prop :=
  ∀ p target, root <+: p → fs p = some (.link target) → isAbsolute target = false ∧ dotDot ∉ components target

theorem Leads.inside {root : FilePlace} (htm : Tame root fs)
    (h : Leads fs create links cur comps q) (hcr : root <+: cur) (hup : dotDot ∉ comps) : root <+: q := by
  have hnm {cur : FilePlace} (hcr : root <+: cur) c : root <+: cur ++ [c] := hcr.trans (prefix_append cur [c])
  induction h with
  | here => exact hcr
  | stay _ _ _ ih => exact ih hcr (not_mem_of_not_mem_cons hup)
  | up => exact absurd mem_cons_self hup
  | enter _ _ _ _ _ _ ih => exact ih (hnm hcr _) (not_mem_of_not_mem_cons hup)
  | @link links cur c rest q target _ _ _ hln _ ih =>
    obtain ⟨hrl, hdt⟩ := htm _ target (hnm hcr c) hln
    rw [hrl] at ih
    refine ih hcr fun hmem => ?_
    rcases mem_append.1 hmem with hmem | hmem
    · exact hdt hmem
    · exact hup (mem_cons_of_mem c hmem)
  | missing => exact hnm hcr _

/-! ## Paths in two parts -/

theorem leads_append {z : FilePlace} {comps' : List Bytes} (h : Leads fs false links cur comps q)
    (h' : Leads fs create links cur (comps ++ comps') z) : ∃ links', Leads fs create links' q comps' z := by
  induction h with
  | here => exact ⟨_, h'⟩
  | stay hdir hdt _ ih =>
    have hr := h'.resolve
    rw [cons_append, resolve_cons hdir, if_pos hdt] at hr
    exact ih (leads_of_resolve hr)
  | up hdir _ ih =>
    have hr := h'.resolve
    rw [cons_append, resolve_cons hdir, if_neg (by decide), if_pos rfl] at hr
    exact ih (leads_of_resolve hr)
  | @enter links cur c rest q i hdir hdt hup hsm hne _ ih =>
    have hr := h'.resolve
    rw [cons_append, resolve_cons hdir, hdt, if_neg Bool.false_ne_true, if_neg hup, hsm] at hr
    rcases i with _ | ⟨content, executable⟩ | target
    · exact ih (leads_of_resolve hr)
    · exact ih (leads_of_resolve hr)
    · exact absurd rfl (hne target)
  | link hdir hdt hup hln _ ih =>
    have hr := h'.resolve
    rw [cons_append, resolve_cons hdir, hdt, if_neg Bool.false_ne_true, if_neg hup, hln] at hr
    rw [append_assoc] at ih
    exact ih (leads_of_resolve hr)
  | missing hcr => cases hcr

/-- On its way a path comes through directories only. -/
theorem leads_first {z : FilePlace} {comps' : List Bytes} (h : Leads fs create links cur (comps ++ comps') z)
    (hne : comps' ≠ []) : ∃ q, Leads fs false links cur comps q ∧ fs q = some .dir := by
  generalize hall : comps ++ comps' = all at h
  induction h generalizing comps with
  | here => exact absurd (append_eq_nil_iff.1 hall).2 hne
  | stay hdir hdt _ ih =>
    rcases comps with _ | ⟨c, comps⟩
    · exact ⟨_, .here _ _, hdir⟩
    · obtain ⟨rfl, hrs⟩ := List.cons.inj hall
      obtain ⟨q, hq, hqd⟩ := ih hrs
      exact ⟨q, .stay hdir hdt hq, hqd⟩
  | up hdir _ ih =>
    rcases comps with _ | ⟨c, comps⟩
    · exact ⟨_, .here _ _, hdir⟩
    · obtain ⟨rfl, hrs⟩ := List.cons.inj hall
      obtain ⟨q, hq, hqd⟩ := ih hrs
      exact ⟨q, .up hdir hq, hqd⟩
  | enter hdir hdt hup hsm hnl _ ih =>
    rcases comps with _ | ⟨c, comps⟩
    · exact ⟨_, .here _ _, hdir⟩
    · obtain ⟨rfl, hrs⟩ := List.cons.inj hall
      obtain ⟨q, hq, hqd⟩ := ih hrs
      exact ⟨q, .enter hdir hdt hup hsm hnl hq, hqd⟩
  | @link _ _ _ rest _ target hdir hdt hup hln _ ih =>
    rcases comps with _ | ⟨c, comps⟩
    · exact ⟨_, .here _ _, hdir⟩
    obtain ⟨rfl, hrs⟩ := List.cons.inj hall
    have htr : (components target ++ comps) ++ comps' = components target ++ rest :=
      (append_assoc ..).trans (congrArg (components target ++ ·) hrs)
    obtain ⟨q, hq, hqd⟩ := ih htr
    exact ⟨q, .link hdir hdt hup hln hq, hqd⟩
  | missing hcr hdir =>
    rcases comps with _ | ⟨c, comps⟩
    · exact ⟨_, .here _ _, hdir⟩
    · exact absurd (append_eq_nil_iff.1 (List.cons.inj hall).2).2 hne

/-! ## What a path comes across -/

/-- A path that is there leads to the same place if all that was there is there. -/
theorem Leads.congr {fs' : FileSystem} (hsm : ∀ p i, fs p = some i → fs' p = some i)
    (h : Leads fs false links cur comps q) : Leads fs' false links cur comps q := by
  induction h with
  | here links cur => exact .here links cur
  | stay hdir hdt _ ih => exact .stay (hsm _ _ hdir) hdt ih
  | up hdir _ ih => exact .up (hsm _ _ hdir) ih
  | enter hdir hdt hup hsome hne _ ih => exact .enter (hsm _ _ hdir) hdt hup (hsm _ _ hsome) hne ih
  | link hdir hdt hup hln _ ih => exact .link (hsm _ _ hdir) hdt hup (hsm _ _ hln) ih
  | missing hcr => cases hcr

/-- After a file was written where a path leads, the path leads to it. -/
theorem Leads.written (h : Leads fs create links cur comps q)
    (hdir : fs q ≠ some .dir) (hln : ∀ target, fs q ≠ some (.link target)) {i : Inode}
    (hi : ∀ target, i ≠ .link target) : Leads (Function.update fs q (some i)) false links cur comps q := by
  have hot {p : FilePlace} {j : Inode} (hp : fs p = some j) (hne : fs q ≠ some j) :
      Function.update fs q (some i) p = some j := by
    rw [update_of_ne (fun hpq : p = q => hne (hpq ▸ hp)), hp]
  induction h with
  | here links cur => exact .here links cur
  | stay hcr hdt _ ih => exact .stay (hot hcr hdir) hdt (ih hdir hln hot)
  | up hcr _ ih => exact .up (hot hcr hdir) (ih hdir hln hot)
  | @enter _ cur c _ q j hcr hdt hup hsm hne _ ih =>
    by_cases hq : cur ++ [c] = q
    · refine .enter (hot hcr hdir) hdt hup ?_ hi (ih hdir hln hot)
      rw [hq, update_self]
    · refine .enter (hot hcr hdir) hdt hup ?_ hne (ih hdir hln hot)
      rw [update_of_ne hq, hsm]
  | link hcr hdt hup hl _ ih => exact .link (hot hcr hdir) hdt hup (hot hl (hln _)) (ih hdir hln hot)
  | missing _ hcr hdt hup hno => exact .enter (hot hcr hdir) hdt hup (update_self ..) hi (.here _ _)

end FileSystem

end Vgi
