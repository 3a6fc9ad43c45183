import Atomis.PreferenceStore
import Mathlib.Logic.Function.Basic

/-!
# Preferences on a device

The module state and the functions of `shared/stores/storage.ts`. A `Map` is the
function that looks a key up in it. The delay of a timer is left out: an armed
timer may fire at any time. A save in flight is the map it carries.
-/

namespace Atomis.DevicePreferences
open KeyPatch PreferenceStore

abbrev Entries := String → Option String

def syncedKeys : List String :=
  ["atomis.settings.v1", "atomis.appearance.v1", "atomis.chrome.v1", "atomis.value-fmt.v1",
    "atomis.vim-mode.v1", "atomis.stdin-mode.v1", "atomis.language.v1", "atomis.scaffold.v1",
    "atomis.inline-logs.v1"]

structure Device where
  remote : Option Entries
  localStorage : Entries
  pending : Entries
  flushTimer : Bool

def noEntries : Entries := fun _ => none

/-- Only synced keys are ever queued, so these are all there can be. -/
def IsEmpty (queued : Entries) : Prop := ∀ key ∈ syncedKeys, queued key = none

instance (queued : Entries) : Decidable (IsEmpty queued) :=
  inferInstanceAs (Decidable (∀ key ∈ syncedKeys, queued key = none))

/-- The body of a PUT. -/
def patchOf (sending : Entries) : PreferencesPatch := ofKeys syncedKeys sending

namespace Device

/-- As `hydratePreferences` leaves it, when the server had every key of the device. -/
def hydrated (preferences : Preferences) (localStorage : Entries) : Device where
  remote := some preferences.lookup
  localStorage := localStorage
  pending := noEntries
  flushTimer := false

def readStoredItem (d : Device) (key : String) : Option String :=
  (d.remote.bind fun remote => remote key).or (d.localStorage key)

def writeStoredItem (d : Device) (key value : String) : Device :=
  let d := { d with localStorage := Function.update d.localStorage key (some value) }
  match d.remote with
  | none => d
  | some remote =>
    if key ∉ syncedKeys then d
    else { d with
      remote := some (Function.update remote key (some value))
      pending := Function.update d.pending key (some value)
      flushTimer := true }

/-- Another device moved past the queued value of the key. -/
def stale (d : Device) (key : String) : Bool :=
  d.remote.any fun remote => remote key ≠ d.pending key

/-- The first half of `flush`, up to the request, with what is sent. -/
def flush (d : Device) : Device × Option Entries :=
  let queued : Entries := fun key => if d.stale key then none else d.pending key
  let d := { d with flushTimer := false, pending := noEntries }
  if IsEmpty queued then (d, none) else (d, some queued)

/-- The `catch` of `flush`. -/
def flushFailed (d : Device) (sending : Entries) : Device :=
  { d with
    pending := fun key =>
      if d.pending key = none ∧ (d.remote.bind fun remote => remote key) = sending key then
        sending key
      else d.pending key
    flushTimer := true }

/-- The first half of `flushPreferencesNow`, up to the request. -/
def flushPreferencesNow (d : Device) : Device × Option Entries :=
  if d.remote.isNone ∨ IsEmpty d.pending then (d, none)
  else ({ d with flushTimer := false }, some d.pending)

def retryLater (d : Device) : Device := { d with flushTimer := true }

/-- The answer of an immediate save that landed. -/
def delivered (d : Device) (sending : Entries) : Device :=
  { d with pending := fun key => if d.pending key = sending key then none else d.pending key }

def applyEntry (d : Device) (entry : String × Option String) : Device :=
  match d.remote with
  | none => d
  | some remote =>
    if entry.1 ∉ syncedKeys ∨ remote entry.1 = entry.2 then d
    else { d with
      remote := some (Function.update remote entry.1 entry.2)
      localStorage := Function.update d.localStorage entry.1 entry.2 }

def applyRemotePreferences (d : Device) (incoming : PreferencesPatch) : Device :=
  incoming.foldl applyEntry d

/-! ## What each does to a key -/

@[simp] theorem hydrated_remote (preferences : Preferences) (localStorage : Entries) :
    (hydrated preferences localStorage).remote = some preferences.lookup := rfl

theorem writeStoredItem_remote {d : Device} {remote : Entries} (h : d.remote = some remote)
    {key : String} (hkey : key ∈ syncedKeys) (value : String) :
    (d.writeStoredItem key value).remote = some (Function.update remote key (some value)) := by
  simp [writeStoredItem, h, hkey]

theorem writeStoredItem_pending {d : Device} {remote : Entries} (h : d.remote = some remote)
    {key : String} (hkey : key ∈ syncedKeys) (value : String) :
    (d.writeStoredItem key value).pending = Function.update d.pending key (some value) := by
  simp [writeStoredItem, h, hkey]

theorem writeStoredItem_flushTimer {d : Device} {remote : Entries} (h : d.remote = some remote)
    {key : String} (hkey : key ∈ syncedKeys) (value : String) :
    (d.writeStoredItem key value).flushTimer = true := by
  simp [writeStoredItem, h, hkey]

theorem writeStoredItem_of_not_synced (d : Device) {key : String} (hkey : key ∉ syncedKeys)
    (value : String) : d.writeStoredItem key value =
      { d with localStorage := Function.update d.localStorage key (some value) } := by
  cases h : d.remote with
  | none => simp [writeStoredItem, h]
  | some remote => simp [writeStoredItem, h, hkey]

theorem applyEntry_remote {d : Device} {remote : Entries} (h : d.remote = some remote)
    (entry : String × Option String) : ∃ remote', (d.applyEntry entry).remote = some remote' ∧
      ∀ key ∈ syncedKeys, remote' key = if key = entry.1 then entry.2 else remote key := by
  by_cases hskip : entry.1 ∉ syncedKeys ∨ remote entry.1 = entry.2
  · refine ⟨remote, by simp only [applyEntry, h, if_pos hskip], fun key hkey => ?_⟩
    by_cases hk : key = entry.1
    · subst hk
      rw [if_pos rfl]
      exact hskip.resolve_left fun hnot => hnot hkey
    · rw [if_neg hk]
  · refine ⟨Function.update remote entry.1 entry.2, by simp only [applyEntry, h, if_neg hskip],
      fun key _ => ?_⟩
    rw [Function.update_apply]

theorem applyEntry_queue (d : Device) (entry : String × Option String) :
    (d.applyEntry entry).pending = d.pending ∧ (d.applyEntry entry).flushTimer = d.flushTimer := by
  cases h : d.remote with
  | none => simp [applyEntry, h]
  | some remote =>
    by_cases hskip : entry.1 ∉ syncedKeys ∨ remote entry.1 = entry.2
    · simp only [applyEntry, h, if_pos hskip, and_self]
    · simp only [applyEntry, h, if_neg hskip, and_self]

theorem applyRemotePreferences_remote {d : Device} {remote : Entries} (h : d.remote = some remote)
    (incoming : PreferencesPatch) :
    ∃ remote', (d.applyRemotePreferences incoming).remote = some remote' ∧
      ∀ key ∈ syncedKeys, remote' key = (written incoming key).getD (remote key) := by
  induction incoming generalizing d remote with
  | nil => exact ⟨remote, h, fun key _ => rfl⟩
  | cons entry incoming ih =>
    obtain ⟨remote₁, h₁, hkey₁⟩ := applyEntry_remote h entry
    obtain ⟨remote₂, h₂, hkey₂⟩ := ih h₁
    refine ⟨remote₂, h₂, fun key hkey => ?_⟩
    rw [hkey₂ key hkey, hkey₁ key hkey, written_cons]
    cases written incoming key with
    | some value => simp
    | none => by_cases hk : key = entry.1 <;> simp [hk]

/-- With nothing stale, the whole queue leaves. -/
theorem flush_of_not_stale {d : Device} {remote : Entries} (h : d.remote = some remote)
    (hstale : ∀ key, d.pending key ≠ none → remote key = d.pending key) :
    d.flush =
      ({ d with flushTimer := false, pending := noEntries },
        if IsEmpty d.pending then none else some d.pending) := by
  have hqueued : (fun key => if d.stale key then none else d.pending key) = d.pending := by
    funext key
    cases hv : d.pending key with
    | none => simp
    | some v =>
      have hmirror := hstale key (by simp [hv])
      simp [stale, h, hmirror]
  simp only [flush, hqueued]
  split_ifs <;> rfl

/-- A change from the socket queues nothing. -/
theorem applyRemotePreferences_queue (d : Device) (incoming : PreferencesPatch) :
    (d.applyRemotePreferences incoming).pending = d.pending ∧
      (d.applyRemotePreferences incoming).flushTimer = d.flushTimer := by
  induction incoming generalizing d with
  | nil => exact ⟨rfl, rfl⟩
  | cons entry incoming ih =>
    obtain ⟨hpending, htimer⟩ := ih (d.applyEntry entry)
    obtain ⟨hpending', htimer'⟩ := d.applyEntry_queue entry
    exact ⟨hpending.trans hpending', htimer.trans htimer'⟩

end Device

end Atomis.DevicePreferences
