import HyperionVault.Service.KmsProvider

/-!
# The rotations of the AWS key

AWS lists the rotations of a key in pages. `latest_rotation_at` of `kms.rs` follows them from marker to marker and keeps
the latest date.

* `RotationsPage`, `latestRotationAt` : a page, and the loop over the pages;
* `Reads` : the pages a server gives, whatever it answers to each request, and how they end;
* `IsLatest`, `isLatest_foldl` : what the loop keeps;
* `latest_rotation_exact` : when it answers, and what.
-/

namespace HyperionVault
open Lib

/-- A page of rotations: their dates, in seconds, where an entry has one. -/
structure RotationsPage where
  rotations : List (Option Int64)
  truncated : Bool
  nextMarker : Option String

def laterOf (latest : Option Int64) : Option Int64 → Option Int64
  | none => latest
  | some secs => some (match latest with
      | none => secs
      | some current => max current secs)

/-- The loop of `latest_rotation_at`: `server` answers request number `n` with this marker; `none` when the fuel is used
up. -/
def latestFrom (server : Nat → Option String → Except String RotationsPage) : Nat → Nat → Option String →
    Option Int64 → Option (Except String (Option Int64))
  | 0, _, _, _ => none
  | fuel + 1, n, marker, latest =>
      match awsSend "list_key_rotations" (server n marker) with
      | .error err => some (.error err)
      | .ok out =>
          let latest := out.rotations.foldl laterOf latest
          if out.truncated then
            match out.nextMarker with
            | none => some (.ok latest)
            | some marker => latestFrom server fuel (n + 1) (some marker) latest
          else some (.ok latest)

def latestRotationAt (server : Nat → Option String → Except String RotationsPage) (fuel : Nat) :
    Option (Except String (Option Int64)) :=
  latestFrom server fuel 0 none none

/-- Where the next page is, if there is one. -/
def RotationsPage.next (out : RotationsPage) : Option String := if out.truncated then out.nextMarker else none

/-- The pages that the server gives from this request on, and how they end. -/
inductive Reads (server : Nat → Option String → Except String RotationsPage) :
    Nat → Option String → List RotationsPage → Except String Unit → Prop
  | failed {n : Nat} {marker : Option String} {err : String} (h : server n marker = .error err) :
      Reads server n marker [] (.error err)
  | last {n : Nat} {marker : Option String} {out : RotationsPage} (h : server n marker = .ok out)
      (hnext : out.next = none) : Reads server n marker [out] (.ok ())
  | more {n : Nat} {marker : Option String} {out : RotationsPage} {next : String} {pages : List RotationsPage}
      {ending : Except String Unit} (h : server n marker = .ok out) (hnext : out.next = some next)
      (rest : Reads server (n + 1) (some next) pages ending) : Reads server n marker (out :: pages) ending

def pageDates (pages : List RotationsPage) : List Int64 := pages.flatMap fun out => out.rotations.filterMap id

/-- The latest of the dates, if there are any. -/
def IsLatest (dates : List Int64) : Option Int64 → Prop
  | none => dates = []
  | some latest => latest ∈ dates ∧ ∀ date ∈ dates, date ≤ latest

/-- What pages that end like this make of the request. -/
def RotationsAnswer (dates : List Int64) : Except String Unit → Except String (Option Int64) → Prop
  | .error err, answer => answer = .error ("kms list_key_rotations failed: " ++ err)
  | .ok (), answer => ∃ latest, answer = .ok latest ∧ IsLatest dates latest

section Rotations
variable {server : Nat → Option String → Except String RotationsPage}

theorem isLatest_laterOf {dates : List Int64} {latest : Option Int64} (h : IsLatest dates latest) (entry : Option Int64) :
    IsLatest (dates ++ [entry].filterMap id) (laterOf latest entry) := by
  cases entry with
  | none => simpa [laterOf] using h
  | some secs =>
      cases latest with
      | none =>
          rw [show dates = [] from h]
          exact ⟨List.mem_singleton_self _, fun date hdate => (List.mem_singleton.mp hdate).le⟩
      | some current =>
          obtain ⟨hmem, hmax⟩ := h
          refine ⟨?_, fun date hdate => ?_⟩
          · change max current secs ∈ _
            rcases max_choice current secs with hmax' | hmax'
            · rw [hmax']
              exact List.mem_append_left _ hmem
            · rw [hmax']
              exact List.mem_append_right _ (List.mem_singleton_self _)
          · rcases List.mem_append.mp hdate with hdate | hdate
            · exact (hmax date hdate).trans (le_max_left _ _)
            · exact (List.mem_singleton.mp hdate).le.trans (le_max_right _ _)

theorem isLatest_foldl {dates : List Int64} {latest : Option Int64} (h : IsLatest dates latest)
    (entries : List (Option Int64)) : IsLatest (dates ++ entries.filterMap id) (entries.foldl laterOf latest) := by
  induction entries generalizing dates latest with
  | nil => simpa using h
  | cons entry entries ih =>
      have hnext := ih (isLatest_laterOf h entry)
      rw [List.append_assoc, ← List.filterMap_append] at hnext
      exact hnext

theorem latestFrom_page {fuel n : Nat} {marker : Option String} {latest : Option Int64} {out : RotationsPage}
    (h : server n marker = .ok out) : latestFrom server (fuel + 1) n marker latest =
      match out.next with
      | none => some (.ok (out.rotations.foldl laterOf latest))
      | some next => latestFrom server fuel (n + 1) (some next) (out.rotations.foldl laterOf latest) := by
  rw [latestFrom, h, RotationsPage.next]
  change (if out.truncated = true then _ else _) = _
  cases out.truncated with
  | false => rfl
  | true =>
      rw [if_pos rfl]
      cases out.nextMarker <;> rfl

/-- Enough fuel for the pages gives the answer. -/
theorem latestFrom_of_reads {n : Nat} {marker : Option String} {pages : List RotationsPage} {ending : Except String Unit}
    (h : Reads server n marker pages ending) {dates : List Int64} {latest : Option Int64} (hlatest : IsLatest dates latest)
    {fuel : Nat} (hfuel : pages.length < fuel) : ∃ answer, latestFrom server fuel n marker latest = some answer ∧
      RotationsAnswer (dates ++ pageDates pages) ending answer := by
  induction h generalizing dates latest fuel with
  | failed h =>
      obtain ⟨fuel, rfl⟩ := Nat.exists_eq_succ_of_ne_zero (Nat.ne_of_gt (Nat.zero_lt_of_lt hfuel))
      refine ⟨_, ?_, rfl⟩
      rw [latestFrom, h]
      rfl
  | @last n marker out h hnext =>
      obtain ⟨fuel, rfl⟩ := Nat.exists_eq_succ_of_ne_zero (Nat.ne_of_gt (Nat.zero_lt_of_lt hfuel))
      refine ⟨.ok (out.rotations.foldl laterOf latest), ?_, _, rfl, ?_⟩
      · rw [latestFrom_page h, hnext]
      · rw [pageDates, List.flatMap_singleton]
        exact isLatest_foldl hlatest out.rotations
  | @more n marker out next pages ending h hnext rest ih =>
      obtain ⟨fuel, rfl⟩ := Nat.exists_eq_succ_of_ne_zero (Nat.ne_of_gt (Nat.zero_lt_of_lt hfuel))
      obtain ⟨answer, hrun, hanswer⟩ := ih (isLatest_foldl hlatest out.rotations) (Nat.lt_of_succ_lt_succ hfuel)
      refine ⟨answer, ?_, ?_⟩
      · rw [latestFrom_page h, hnext]
        exact hrun
      · rw [pageDates, List.flatMap_cons, ← List.append_assoc]
        exact hanswer

/-- An answer comes from pages that end. -/
theorem reads_of_latestFrom {fuel n : Nat} {marker : Option String} {dates : List Int64} {latest : Option Int64}
    (hlatest : IsLatest dates latest) {answer : Except String (Option Int64)}
    (h : latestFrom server fuel n marker latest = some answer) :
    ∃ pages ending, Reads server n marker pages ending ∧ pages.length ≤ fuel ∧
      RotationsAnswer (dates ++ pageDates pages) ending answer := by
  induction fuel generalizing n marker dates latest with
  | zero => cases h
  | succ fuel ih =>
      cases hpage : server n marker with
      | error err =>
          rw [latestFrom, hpage] at h
          cases h
          exact ⟨[], .error err, .failed hpage, Nat.zero_le _, rfl⟩
      | ok out =>
          have hpages := isLatest_foldl hlatest out.rotations
          rw [latestFrom_page hpage] at h
          cases hnext : out.next with
          | none =>
              rw [hnext] at h
              cases h
              refine ⟨[out], .ok (), .last hpage hnext, Nat.succ_le_succ (Nat.zero_le _), _, rfl, ?_⟩
              rwa [pageDates, List.flatMap_singleton]
          | some next =>
              rw [hnext] at h
              obtain ⟨pages, ending, hreads, hlength, hanswer⟩ := ih hpages h
              refine ⟨out :: pages, ending, .more hpage hnext hreads, Nat.succ_le_succ hlength, ?_⟩
              rwa [pageDates, List.flatMap_cons, ← List.append_assoc]

end Rotations

/-- `latest_rotation_at` answers exactly when the pages of rotations end: with the latest of all the dates on them, or
`None` where there are none, if the last page says that it is the last or names no next one, and with the error of the
first page that fails. It makes one request for each page. -/
theorem latest_rotation_exact (server : Nat → Option String → Except String RotationsPage) :
    (∀ pages ending, Reads server 0 none pages ending → ∀ fuel, pages.length < fuel →
      ∃ answer, latestRotationAt server fuel = some answer ∧ RotationsAnswer (pageDates pages) ending answer) ∧
    ∀ fuel answer, latestRotationAt server fuel = some answer →
      ∃ pages ending, Reads server 0 none pages ending ∧ pages.length ≤ fuel ∧
        RotationsAnswer (pageDates pages) ending answer := by
  have hnone : IsLatest [] none := rfl
  exact ⟨fun _ _ hreads _ hfuel => latestFrom_of_reads hreads hnone hfuel,
    fun _ _ h => reads_of_latestFrom hnone h⟩

end HyperionVault
