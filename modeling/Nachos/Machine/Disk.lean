import Nachos.Lib.Rotation
import Nachos.Machine.Attached

/-!
# The time a disk takes

`disk.cc`: the position of the head, the track buffer, and how long a request takes, as a device
on the interrupt queue. What the sectors hold is another matter. The tick counters are taken not
to overflow: a due time behind the largest `int` would be reached at once.
-/
namespace Nachos

/-- `class Disk` of `disk.h`, without the file. -/
structure RawDisk where
  active : Bool
  lastSector : ℤ
  bufferInit : ℤ

namespace RawDisk

/-- `SectorsPerTrack`, `NumTracks` and `NumSectors` of `disk.h`. -/
def sectorsPerTrack : ℤ := 32
def numTracks : ℤ := 32
def numSectors : ℤ := sectorsPerTrack * numTracks

/-- `RotationTime` and `SeekTime` of `stats.h`. -/
def rotationTime : ℤ := 500
def seekTime : ℤ := 500

/-- `Disk::Disk`. -/
def boot : RawDisk := ⟨false, 0, 0⟩

/-- `Disk::TimeToSeek`, which returns the seek time and sets `*rotation`. -/
def timeToSeek (d : RawDisk) (totalTicks newSector : ℤ) : ℤ × ℤ :=
  let newTrack := newSector.tdiv sectorsPerTrack
  let oldTrack := d.lastSector.tdiv sectorsPerTrack
  let seek := |newTrack - oldTrack| * seekTime
  let over' := (totalTicks + seek).tmod rotationTime
  (seek, if over' > 0 then rotationTime - over' else 0)

/-- `Disk::ModuloDiff`. -/
def moduloDiff (to' from' : ℤ) : ℤ :=
  let toOffset := to'.tmod sectorsPerTrack
  let fromOffset := from'.tmod sectorsPerTrack
  (toOffset - fromOffset + sectorsPerTrack).tmod sectorsPerTrack

/-- `Disk::ComputeLatency`, with the track buffer. -/
def computeLatency (d : RawDisk) (totalTicks newSector : ℤ) (writing : Bool) : ℤ :=
  let (seek, rotation) := d.timeToSeek totalTicks newSector
  let timeAfter := totalTicks + seek + rotation
  if writing = false ∧ seek = 0 ∧ (timeAfter - d.bufferInit).tdiv rotationTime >
      moduloDiff newSector (d.bufferInit.tdiv rotationTime) then
    rotationTime
  else
    let rotation := rotation +
      moduloDiff newSector (timeAfter.tdiv rotationTime) * rotationTime
    seek + rotation + rotationTime

/-- `Disk::UpdateLast`. -/
def updateLast (d : RawDisk) (totalTicks newSector : ℤ) : RawDisk :=
  let (seek, rotate) := d.timeToSeek totalTicks newSector
  { d with
    bufferInit := if seek ≠ 0 then totalTicks + seek + rotate else d.bufferInit
    lastSector := newSector }

/-- `Disk::ReadRequest` and `Disk::WriteRequest` up to the call of `Schedule`, with the ticks it is
called with. `none` where an assertion fails. -/
def request (d : RawDisk) (totalTicks sectorNumber : ℤ) (writing : Bool) : Option (RawDisk × ℤ) :=
  let ticks := d.computeLatency totalTicks sectorNumber writing
  if d.active then none
  else if 0 ≤ sectorNumber ∧ sectorNumber < numSectors then
    some ({ d with active := true }.updateLast totalTicks sectorNumber, ticks)
  else none

/-- `Disk::HandleInterrupt`, up to the call of `handler`. -/
def handleInterrupt (d : RawDisk) : RawDisk := { d with active := false }

end RawDisk

open Rotation (slot distance Passes)

/-- How long the head takes from one sector to the track of another one. -/
def seekFrom (sector target : ℕ) : ℕ :=
  500 * ((target / 32 - sector / 32) + (sector / 32 - target / 32))

namespace RawDisk

variable {d : RawDisk} {last now sector since : ℕ}

theorem timeToSeek_eq (hlast : d.lastSector = last) (now sector : ℕ) :
    d.timeToSeek now sector = (((seekFrom last sector : ℕ) : ℤ),
      ((slot 500 (now + seekFrom last sector) * 500 : ℕ) : ℤ) - (now + seekFrom last sector : ℕ)) := by
  have hseek : |(sector : ℤ).tdiv 32 - (last : ℤ).tdiv 32| * 500 = (seekFrom last sector : ℕ) := by
    rw [Int.tdiv_eq_ediv_of_nonneg (Int.natCast_nonneg sector),
      Int.tdiv_eq_ediv_of_nonneg (Int.natCast_nonneg last), seekFrom, Int.abs_eq_natAbs]
    omega
  unfold timeToSeek
  simp only [sectorsPerTrack, seekTime, rotationTime, hlast, hseek, Prod.mk.injEq, true_and]
  generalize seekFrom last sector = seek
  rw [Int.tmod_eq_emod_of_nonneg (by omega), slot]
  split <;> omega

theorem moduloDiff_eq (x k : ℕ) : moduloDiff x k = (distance 32 x k : ℕ) := by
  unfold moduloDiff sectorsPerTrack distance
  simp only
  rw [Int.tmod_eq_emod_of_nonneg (Int.natCast_nonneg x),
    Int.tmod_eq_emod_of_nonneg (Int.natCast_nonneg k), Int.tmod_eq_emod_of_nonneg (by omega)]
  omega

/-- Where `ComputeLatency` counts from. -/
theorem computeLatency_eq (hlast : d.lastSector = last)
    (hbuffer : d.bufferInit = (slot 500 since * 500 : ℕ)) (hsince : since ≤ now)
    (writing : Bool) :
    d.computeLatency now sector writing =
      if writing = false ∧ seekFrom last sector = 0 ∧
          distance 32 sector (slot 500 since) < slot 500 now - slot 500 since then 500
      else
        let q := slot 500 (now + seekFrom last sector)
        (((q + distance 32 sector q + 1) * 500 : ℕ) : ℤ) - now := by
  have hmono : slot 500 since ≤ slot 500 now := Rotation.slot_mono 500 hsince
  have hstart : ((slot 500 since * 500 : ℕ) : ℤ).tdiv 500 = (slot 500 since : ℕ) := by
    rw [Int.tdiv_eq_ediv_of_nonneg (Int.natCast_nonneg _)]
    omega
  unfold computeLatency
  simp only [timeToSeek_eq hlast, rotationTime, hbuffer, hstart, moduloDiff_eq]
  generalize hseek : seekFrom last sector = seek
  have hafter : (now : ℤ) + (seek : ℕ) + (((slot 500 (now + seek) * 500 : ℕ) : ℤ) -
      (now + seek : ℕ)) = (slot 500 (now + seek) * 500 : ℕ) := by omega
  have hplace : ((slot 500 (now + seek) * 500 : ℕ) : ℤ).tdiv 500 = (slot 500 (now + seek) : ℕ) := by
    rw [Int.tdiv_eq_ediv_of_nonneg (Int.natCast_nonneg _)]
    omega
  rw [hafter, hplace, moduloDiff_eq]
  have hhit : (writing = false ∧ ((seek : ℕ) : ℤ) = 0 ∧
      (((slot 500 (now + seek) * 500 : ℕ) : ℤ) - (slot 500 since * 500 : ℕ)).tdiv 500 >
        (distance 32 sector (slot 500 since) : ℕ)) ↔
      writing = false ∧ seek = 0 ∧
        distance 32 sector (slot 500 since) < slot 500 now - slot 500 since := by
    refine and_congr_right fun _ => ?_
    rw [Nat.cast_eq_zero]
    refine and_congr_right fun hzero => ?_
    rw [hzero, Nat.add_zero, Int.tdiv_eq_ediv_of_nonneg (by omega)]
    omega
  by_cases h : writing = false ∧ seek = 0 ∧
      distance 32 sector (slot 500 since) < slot 500 now - slot 500 since
  · rw [if_pos h, if_pos (hhit.mpr h)]
  · rw [if_neg h, if_neg (mt hhit.mp h)]
    push_cast
    omega

/-- Where the head was first over the track of the last request, and when the reading of the track
into the buffer began. -/
def bufferStart (last since now sector : ℕ) (writing : Bool) : ℕ :=
  if writing = true ∨ sector / 32 ≠ last / 32 then now + seekFrom last sector else since

/-- A write is not answered from the buffer. -/
theorem bufferStart_le (hsince : since ≤ now) (writing : Bool) :
    bufferStart last since now sector false ≤ bufferStart last since now sector writing := by
  cases writing with
  | false => exact le_rfl
  | true =>
    have hwrite : bufferStart last since now sector true = now + seekFrom last sector :=
      if_pos (.inl rfl)
    rw [hwrite, bufferStart]
    split
    · exact le_rfl
    · exact hsince.trans (Nat.le_add_right _ _)

theorem seekFrom_eq_zero : seekFrom last sector = 0 ↔ sector / 32 = last / 32 := by
  unfold seekFrom
  omega

/-- Counted from `bufferStart` it is the same place when the buffer does not hold the sector. -/
theorem place_eq (hsince : since ≤ now) {writing : Bool}
    (hmiss : ¬(writing = false ∧ seekFrom last sector = 0 ∧
      distance 32 sector (slot 500 since) < slot 500 now - slot 500 since)) :
    slot 500 (bufferStart last since now sector writing) +
        distance 32 sector (slot 500 (bufferStart last since now sector writing)) =
      slot 500 (now + seekFrom last sector) +
        distance 32 sector (slot 500 (now + seekFrom last sector)) := by
  unfold bufferStart
  split
  · rfl
  · next hbuffered =>
    rw [not_or, Bool.not_eq_true, not_not] at hbuffered
    obtain ⟨hread, htrack⟩ := hbuffered
    have hzero : seekFrom last sector = 0 := seekFrom_eq_zero.mpr htrack
    have hfar : slot 500 now ≤ slot 500 since + distance 32 sector (slot 500 since) := by
      have := not_lt.mp fun hlt => hmiss ⟨hread, hzero, hlt⟩
      omega
    rw [hzero, Nat.add_zero]
    exact (Rotation.add_distance_eq (by decide) (Rotation.slot_mono 500 hsince) hfar).symm

/-- The latency is the first time when the sector has gone by under the head since `bufferStart`,
and a transfer after `now` is over. -/
theorem isLeast_computeLatency (sector : ℕ) (hlast : d.lastSector = last)
    (hbuffer : d.bufferInit = (slot 500 since * 500 : ℕ)) (hsince : since ≤ now)
    (writing : Bool) : ∃ ticks : ℕ, d.computeLatency now sector writing = ticks ∧
      IsLeast {stop | now + 500 ≤ stop ∧
        Passes 500 32 (bufferStart last since now sector writing) stop sector} (now + ticks) := by
  have hleast := Rotation.isLeast_passes (r := 500) (n := 32) (by decide) (by decide) now
    (bufferStart last since now sector writing) sector
  rw [computeLatency_eq hlast hbuffer hsince]
  split
  · next hhit =>
    obtain ⟨hread, hzero, hnear⟩ := hhit
    have hstart : bufferStart last since now sector writing = since := by
      refine if_neg fun h => ?_
      rcases h with hw | ht
      · rw [hread] at hw
        cases hw
      · exact ht (seekFrom_eq_zero.mp hzero)
    have hlt := Rotation.slot_mul_lt (r := 500) (by decide) now
    rw [hstart] at hleast ⊢
    rw [max_eq_left (by omega)] at hleast
    exact ⟨500, rfl, hleast⟩
  · next hmiss =>
    have hle := Rotation.le_slot_mul (r := 500) (by decide) (now + seekFrom last sector)
    rw [place_eq hsince hmiss] at hleast
    rw [max_eq_right (by omega)] at hleast
    refine ⟨_, (Nat.cast_sub ?_).symm, ?_⟩
    · omega
    · rw [Nat.add_sub_cancel' (by omega)]
      exact hleast

/-- A request changes the track buffer with the track. -/
theorem request_eq_some {d' : RawDisk} {sectorNumber ticks : ℤ} {writing : Bool}
    (hr : d.request now sectorNumber writing = some (d', ticks)) :
    d.active = false ∧ (0 ≤ sectorNumber ∧ sectorNumber < 1024) ∧
      ticks = d.computeLatency now sectorNumber writing ∧ d'.active = true ∧
      d'.lastSector = sectorNumber ∧ d'.bufferInit = (d.updateLast now sectorNumber).bufferInit := by
  unfold request at hr
  simp only at hr
  split at hr
  · cases hr
  · next hactive =>
    split at hr
    · next hrange =>
      cases hr
      exact ⟨by simpa using hactive, hrange, rfl, rfl, rfl, rfl⟩
    · cases hr

theorem updateLast_bufferInit (hlast : d.lastSector = last)
    (hbuffer : d.bufferInit = (slot 500 since * 500 : ℕ)) (now sector : ℕ) :
    (d.updateLast now sector).bufferInit =
      (slot 500 (bufferStart last since now sector false) * 500 : ℕ) := by
  unfold updateLast bufferStart
  simp only [timeToSeek_eq hlast, ne_eq, Nat.cast_eq_zero, seekFrom_eq_zero, Bool.false_eq_true,
    false_or]
  split
  · omega
  · exact hbuffer

end RawDisk

/-! ## The disk on the interrupt queue -/

open Interrupt

variable {H : Type}

structure Drive (H : Type) where
  hardware : Hardware H
  disk : RawDisk

inductive DriveEvent (H : Type)
  /-- `ReadRequest` or `WriteRequest` at the time `now`, which is to take `ticks`. -/
  | requested (now sector : ℕ) (writing : Bool) (ticks : ℕ)
  /-- `HandleInterrupt` at the time `now`. -/
  | completed (now : ℕ)
  | hardware (e : QEvent H)
  deriving DecidableEq

inductive DriveCall (H : Type)
  | request (sectorNumber : ℤ) (writing : Bool)
  | other (c : Call H)

namespace Drive

variable [DecidableEq H] (diskDone : H) (this : BitVec 32)

/-- `DiskDone` is called by no other code than the disk's interrupt, and schedules nothing but it. -/
def next (d : Drive H) : DriveCall H → Option (Drive H × List (DriveEvent H))
  | .request sectorNumber writing =>
    match d.disk.request d.hardware.int.stats.totalTicks sectorNumber writing with
    | none => none
    | some (disk, ticks) =>
      (Interrupt.next d.hardware (.schedule diskDone this ticks.toNat .DiskInt)).map fun r =>
        (⟨r.1, disk⟩, .requested d.hardware.int.stats.totalTicks sectorNumber.toNat writing
          ticks.toNat :: r.2.map .hardware)
  | .other c =>
    if c.foreign diskDone then
      (Interrupt.next d.hardware c).map fun r =>
        if occurs diskDone r.2 = [] then (⟨r.1, d.disk⟩, r.2.map .hardware)
        else (⟨r.1, d.disk.handleInterrupt⟩,
          .completed r.1.int.stats.totalTicks :: r.2.map .hardware)
    else none

/-- Any code on the machine, with the disk as one of its devices. -/
def system : System (Drive H) (DriveEvent H) :=
  .ofNext ⟨⟨boot, .kernel⟩, .boot⟩ (next diskDone this)

end Drive

/-- The requests so far: the last sector, since when the head is over its track, and when the
request in progress is to be done. -/
structure Requests where
  sector : ℕ
  since : ℕ
  due : Option ℕ

namespace Requests

/-- The disk is new, and its head over the first track. -/
def none : Requests := ⟨0, 0, .none⟩

/-- A request moves the head, from the time when it arrives on a new track. -/
def after (r : Requests) : DriveEvent H → Requests
  | .requested now sector _ ticks =>
    ⟨sector, RawDisk.bufferStart r.sector r.since now sector false, some (now + ticks)⟩
  | .completed _ => { r with due := .none }
  | .hardware _ => r

def of (tr : List (DriveEvent H)) : Requests := tr.foldl after none

theorem of_append (tr es : List (DriveEvent H)) : of (tr ++ es) = es.foldl after (of tr) :=
  List.foldl_append

theorem foldl_hardware (es : List (QEvent H)) (r : Requests) :
    (es.map DriveEvent.hardware).foldl after r = r := by
  induction es with
  | nil => rfl
  | cons e es ih => exact ih

end Requests

namespace Drive

/-- What the interrupt hardware does in a run. -/
def calls (tr : List (DriveEvent H)) : List (QEvent H) :=
  tr.filterMap fun | .hardware e => some e | _ => none

theorem calls_append (tr es : List (DriveEvent H)) : calls (tr ++ es) = calls tr ++ calls es :=
  List.filterMap_append

theorem calls_map (es : List (QEvent H)) : calls (es.map DriveEvent.hardware) = es := by
  induction es with
  | nil => rfl
  | cons e es ih => exact congrArg (e :: ·) ih

theorem not_mem_hardware {x : DriveEvent H} {es₁ es₂ : List (DriveEvent H)}
    {hes : List (QEvent H)} (hx : ∀ e, x ≠ .hardware e) :
    hes.map .hardware ≠ es₁ ++ x :: es₂ := by
  intro h
  have hmem : x ∈ hes.map DriveEvent.hardware := by
    rw [h]
    exact List.mem_append_right _ List.mem_cons_self
  obtain ⟨e, -, he⟩ := List.mem_map.mp hmem
  exact hx e he.symm

/-- A request or a completion is the first event of its step. -/
theorem cons_eq_split {x y : DriveEvent H} {es₁ es₂ : List (DriveEvent H)}
    {hes : List (QEvent H)} (hx : ∀ e, x ≠ .hardware e)
    (h : y :: hes.map .hardware = es₁ ++ x :: es₂) : es₁ = [] ∧ x = y := by
  cases es₁ with
  | nil =>
    cases h
    exact ⟨rfl, rfl⟩
  | cons z es₁ => exact absurd (List.cons.inj h).2 (not_mem_hardware hx)

variable [DecidableEq H] {f : H} {this : BitVec 32} {tr es : List (DriveEvent H)} {d d' : Drive H}
  {a : DriveCall H}

/-- The invariant of the disk. Between requests no interrupt of it is pending, and during one
only that of the request. -/
structure Sound (f : H) (tr : List (DriveEvent H)) (d : Drive H) : Prop where
  hardware : Interrupt.Sound (calls tr) d.hardware
  active : d.disk.active = (Requests.of tr).due.isSome
  sector : d.disk.lastSector = ((Requests.of tr).sector : ℕ)
  buffer : d.disk.bufferInit = (slot 500 (Requests.of tr).since * 500 : ℕ)
  since : (Requests.of tr).since ≤
    (Requests.of tr).due.getD d.hardware.int.stats.totalTicks
  pending : ∃ o : Option (PendingInterrupt H), outstanding f d.hardware.int = o.toList ∧
    o.map (·.when) = (Requests.of tr).due

theorem sound_boot : Sound f [] (⟨⟨boot, .kernel⟩, .boot⟩ : Drive H) where
  hardware := Interrupt.sound_boot
  active := rfl
  sector := rfl
  buffer := by simp [RawDisk.boot, Requests.of, Requests.none, slot]
  since := Nat.zero_le _
  pending := ⟨none, rfl, rfl⟩

/-- A request that an idle disk takes. -/
structure Taken (tr : List (DriveEvent H)) (now sector : ℕ) (writing : Bool) (ticks : ℕ) :
    Prop where
  idle : (Requests.of tr).due = none
  least : IsLeast {stop | now + 500 ≤ stop ∧ Passes 500 32 (RawDisk.bufferStart
    (Requests.of tr).sector (Requests.of tr).since now sector writing) stop sector} (now + ticks)

theorem Sound.taken (hs : Sound f tr d) {disk : RawDisk} {sectorNumber ticks : ℤ} {writing : Bool}
    (hr : d.disk.request d.hardware.int.stats.totalTicks sectorNumber writing = some (disk, ticks)) :
    ∃ sector ticks' : ℕ, sectorNumber = sector ∧ ticks = ticks' ∧
      Taken tr d.hardware.int.stats.totalTicks sector writing ticks' := by
  obtain ⟨hactive, ⟨hnonneg, -⟩, hticks, -⟩ := RawDisk.request_eq_some hr
  obtain ⟨sector, rfl⟩ := Int.eq_ofNat_of_zero_le hnonneg
  have hidle : (Requests.of tr).due = none := by
    rw [hs.active] at hactive
    exact Option.not_isSome_iff_eq_none.mp (by simp [hactive])
  have hsince := hs.since
  rw [hidle, Option.getD_none] at hsince
  obtain ⟨ticks', heq, hleast⟩ :=
    RawDisk.isLeast_computeLatency sector hs.sector hs.buffer hsince writing
  exact ⟨sector, ticks', rfl, hticks.trans heq, hidle, hleast⟩

theorem next_request {sectorNumber : ℤ} {writing : Bool}
    (hn : next f this d (.request sectorNumber writing) = some (d', es)) :
    ∃ disk ticks, d.disk.request d.hardware.int.stats.totalTicks sectorNumber writing =
        some (disk, ticks) ∧ ∃ hw hes,
      Interrupt.next d.hardware (.schedule f this ticks.toNat .DiskInt) = some (hw, hes) ∧
      d' = ⟨hw, disk⟩ ∧ es = .requested d.hardware.int.stats.totalTicks sectorNumber.toNat writing
        ticks.toNat :: hes.map .hardware := by
  simp only [next] at hn
  split at hn
  · cases hn
  · next disk ticks hr =>
    obtain ⟨⟨hw, hes⟩, hnext, heq⟩ := Option.map_eq_some_iff.mp hn
    cases heq
    exact ⟨disk, ticks, hr, hw, hes, hnext, rfl, rfl⟩

theorem Sound.request {sectorNumber : ℤ} {writing : Bool} (hs : Sound f tr d)
    (hn : next f this d (.request sectorNumber writing) = some (d', es)) :
    Sound f (tr ++ es) d' := by
  obtain ⟨disk, ticks, hr, hw, hes, hnext, rfl, rfl⟩ := next_request hn
  obtain ⟨sector, ticks, rfl, rfl, hidle, hleast⟩ := hs.taken hr
  obtain ⟨-, -, -, hactive, hsector, hbuffer⟩ := RawDisk.request_eq_some hr
  obtain ⟨-, -, -, hstats, -, -, rfl⟩ := next_schedule_cases hnext
  have hsince := hs.since
  rw [hidle, Option.getD_none] at hsince
  obtain ⟨o, hout, ho⟩ := hs.pending
  rw [hidle, Option.map_eq_none_iff] at ho
  subst ho
  have hpending := hs.hardware.outstanding_schedule hout hnext
  have hafter : Requests.of (tr ++ .requested d.hardware.int.stats.totalTicks sector writing ticks ::
      [QEvent.scheduled (d.hardware.int.toOccur f this ticks .DiskInt)].map .hardware) =
      ⟨sector, RawDisk.bufferStart (Requests.of tr).sector (Requests.of tr).since
        d.hardware.int.stats.totalTicks sector false,
        some (d.hardware.int.stats.totalTicks + ticks)⟩ := by
    rw [Requests.of_append]
    rfl
  simp only [Int.toNat_natCast] at hpending hnext ⊢
  refine ⟨?_, ?_, ?_, ?_, ?_, ?_⟩
  · rw [calls_append]
    exact (Interrupt.sound_step hs.hardware hnext).1
  · rw [hafter]
    exact hactive
  · rw [hafter]
    exact hsector
  · rw [hafter, hbuffer]
    exact RawDisk.updateLast_bufferInit hs.sector hs.buffer _ _
  · rw [hafter]
    exact (RawDisk.bufferStart_le hsince writing).trans hleast.1.2.le
  · rw [hafter]
    exact ⟨some _, hpending, rfl⟩

theorem next_other {c : Call H} (hn : next f this d (.other c) = some (d', es)) :
    c.foreign f = true ∧ ∃ hw hes, Interrupt.next d.hardware c = some (hw, hes) ∧
      ((occurs f hes = [] ∧ d' = ⟨hw, d.disk⟩ ∧ es = hes.map .hardware) ∨
        (occurs f hes ≠ [] ∧ d' = ⟨hw, d.disk.handleInterrupt⟩ ∧
          es = .completed hw.int.stats.totalTicks :: hes.map .hardware)) := by
  simp only [next] at hn
  split at hn
  · next hf =>
    obtain ⟨⟨hw, hes⟩, hnext, heq⟩ := Option.map_eq_some_iff.mp hn
    refine ⟨hf, hw, hes, hnext, ?_⟩
    by_cases ho : occurs f hes = []
    · rw [if_pos ho] at heq
      cases heq
      exact .inl ⟨ho, rfl, rfl⟩
    · rw [if_neg ho] at heq
      cases heq
      exact .inr ⟨ho, rfl, rfl⟩
  · cases hn

/-- What other code does leaves the disk alone, but it may be the interrupt's time. -/
theorem Sound.other {c : Call H} (hs : Sound f tr d)
    (hn : next f this d (.other c) = some (d', es)) : Sound f (tr ++ es) d' := by
  obtain ⟨hf, hw, hes, hnext, hcase⟩ := next_other hn
  obtain ⟨hsound, hforward⟩ := Interrupt.sound_step hs.hardware hnext
  obtain ⟨o, hout, ho⟩ := hs.pending
  have hsince := hs.since
  have hwhich := hs.hardware.outstanding_foreign hout hf hnext
  rcases hcase with ⟨hnone, rfl, rfl⟩ | ⟨hsome, rfl, rfl⟩
  · have hafter : Requests.of (tr ++ hes.map .hardware) = Requests.of tr := by
      rw [Requests.of_append, Requests.foldl_hardware]
    have hcalls : calls (tr ++ hes.map .hardware) = calls tr ++ hes := by
      rw [calls_append, calls_map]
    have hstill : outstanding f hw.int = o.toList := by
      rcases hwhich with ⟨hstill, -⟩ | ⟨p, -, -, hp⟩
      · exact hstill
      · rw [hnone] at hp
        cases hp
    refine ⟨by rwa [hcalls], ?_, ?_, ?_, ?_, ?_⟩ <;> rw [hafter]
    · exact hs.active
    · exact hs.sector
    · exact hs.buffer
    · cases hdue : (Requests.of tr).due with
      | none =>
        rw [hdue] at hsince
        exact hsince.trans hforward.time
      | some due =>
        rw [hdue] at hsince
        exact hsince
    · exact ⟨o, hstill, ho⟩
  · have hafter : Requests.of (tr ++ .completed hw.int.stats.totalTicks :: hes.map .hardware) =
        { Requests.of tr with due := none } := by
      rw [Requests.of_append]
      exact Requests.foldl_hardware hes _
    have hcalls : calls (tr ++ .completed hw.int.stats.totalTicks :: hes.map .hardware) =
        calls tr ++ hes := by
      rw [calls_append]
      exact congrArg (calls tr ++ ·) (calls_map hes)
    obtain ⟨p, rfl, hgone, hp⟩ := hwhich.resolve_left fun h => hsome h.2
    refine ⟨by rwa [hcalls], ?_, ?_, ?_, ?_, ?_⟩ <;> rw [hafter]
    · rfl
    · exact hs.sector
    · exact hs.buffer
    · rw [← ho] at hsince
      exact hsince.trans (hs.hardware.when_le hnext hp)
    · exact ⟨none, hgone, rfl⟩

theorem sound_run (hr : (system f this).Run tr d) : Sound f tr d := by
  refine hr.invariant (I := Sound f) (fun s hs => ?_) fun _ hs hst => ?_
  · cases hs
    exact sound_boot
  · obtain ⟨a, hn⟩ := hst
    cases a with
    | request sectorNumber writing => exact hs.request hn
    | other c => exact hs.other hn

/-- What the users of the disk may rely on. -/
structure Served (f : H) (this : BitVec 32) (tr : List (DriveEvent H)) (d : Drive H) : Prop where
  taken : ∀ tr₁ tr₂ now sector writing ticks,
    tr = tr₁ ++ .requested now sector writing ticks :: tr₂ → Taken tr₁ now sector writing ticks
  completed : ∀ tr₁ tr₂ now, tr = tr₁ ++ .completed now :: tr₂ →
    ∃ due, (Requests.of tr₁).due = some due ∧ due ≤ now
  ready : ∀ sectorNumber writing, (∃ r, next f this d (.request sectorNumber writing) = some r) ↔
    (Requests.of tr).due = none ∧ (0 ≤ sectorNumber ∧ sectorNumber < 1024) ∧
      d.hardware.point.Runs

theorem Sound.ready (hs : Sound f tr d) (sectorNumber : ℤ) (writing : Bool) :
    (∃ r, next f this d (.request sectorNumber writing) = some r) ↔
      (Requests.of tr).due = none ∧ (0 ≤ sectorNumber ∧ sectorNumber < 1024) ∧
        d.hardware.point.Runs := by
  constructor
  · rintro ⟨⟨d', es⟩, hn⟩
    obtain ⟨disk, ticks, hr, hw, hes, hnext, -⟩ := next_request hn
    obtain ⟨-, hrange, -⟩ := RawDisk.request_eq_some hr
    obtain ⟨_, _, -, -, htaken⟩ := hs.taken hr
    exact ⟨htaken.idle, hrange, (next_schedule_cases hnext).1⟩
  · rintro ⟨hidle, hrange, hruns⟩
    have hactive : d.disk.active = false := by
      rw [hs.active, hidle]
      rfl
    obtain ⟨⟨disk, ticks⟩, hr⟩ : ∃ r, d.disk.request d.hardware.int.stats.totalTicks sectorNumber
        writing = some r := by
      unfold RawDisk.request
      rw [if_neg (by simp [hactive])]
      exact ⟨_, if_pos hrange⟩
    obtain ⟨sector, ticks, rfl, rfl, -, hleast⟩ := hs.taken hr
    have hpos : 0 < ticks := by
      have := hleast.1.1
      omega
    obtain ⟨σ, -, hnext⟩ := next_schedule f this .DiskInt hruns hpos
    simp [next, hr, hnext]

/-- The disk on the interrupt hardware, under any sequence of calls. A request takes until its sector
has gone by under the head, counted from the arrival on the track when it is a read, and no
longer; one is in progress at a time, and it completes when its time is over. All this holds as long
as the tick counters do not overflow. -/
theorem served_run (hr : (system f this).Run tr d) : Served f this tr d := by
  refine ⟨fun tr₁ tr₂ now sector writing ticks ht => ?_, fun tr₁ tr₂ now ht => ?_,
    (sound_run hr).ready⟩
  · subst ht
    obtain ⟨tr, t, es₁, es₂, u, hreach, ⟨a, hn⟩, rfl⟩ := hr.emitted
    cases a with
    | request sectorNumber writing' =>
      obtain ⟨disk, ticks', hreq, hw, hes, -, -, hsplit⟩ := next_request hn
      obtain ⟨rfl, hx⟩ := cons_eq_split (by simp) hsplit.symm
      obtain ⟨sector', ticks'', rfl, rfl, htaken⟩ := (sound_run hreach).taken hreq
      cases hx
      simpa using htaken
    | other c =>
      obtain ⟨-, hw, hes, -, ⟨-, -, hsplit⟩ | ⟨-, -, hsplit⟩⟩ := next_other hn
      · exact absurd hsplit.symm (not_mem_hardware (by simp))
      · cases (cons_eq_split (by simp) hsplit.symm).2
  · subst ht
    obtain ⟨tr, t, es₁, es₂, u, hreach, ⟨a, hn⟩, rfl⟩ := hr.emitted
    have hs := sound_run hreach
    cases a with
    | request sectorNumber writing =>
      obtain ⟨disk, ticks', -, hw, hes, -, -, hsplit⟩ := next_request hn
      cases (cons_eq_split (by simp) hsplit.symm).2
    | other c =>
      obtain ⟨hf, hw, hes, hnext, ⟨-, -, hsplit⟩ | ⟨hsome, -, hsplit⟩⟩ := next_other hn
      · exact absurd hsplit.symm (not_mem_hardware (by simp))
      · obtain ⟨rfl, hx⟩ := cons_eq_split (by simp) hsplit.symm
        cases hx
        obtain ⟨o, hout, ho⟩ := hs.pending
        obtain ⟨p, rfl, -, hp⟩ :=
          (hs.hardware.outstanding_foreign hout hf hnext).resolve_left fun h => hsome h.2
        rw [List.append_nil]
        exact ⟨p.when, ho.symm, hs.hardware.when_le hnext hp⟩

/-- The ticks of the requests of a run. -/
def latencies (tr : List (DriveEvent H)) : List ℕ :=
  tr.filterMap fun | .requested _ _ _ ticks => some ticks | _ => none

/-- The second read is answered from the track buffer. The write is for another track, where the
sector has just gone by. -/
theorem served_run_buffered : ∃ (tr : List (DriveEvent Bool)) (d : Drive Bool),
    (system true 0).Run tr d ∧ Served true 0 tr d ∧ latencies tr = [2000, 500, 17000] := by
  obtain ⟨tr, d, hr, _, hp⟩ := System.exists_run_of_exec
    (⟨⟨boot, .kernel⟩, .boot⟩ : Drive Bool) (next true 0)
    [.request 3 false, .other .idle, .other .handlerReturn, .other .checkIfDue,
      .request 2 false, .other .idle, .request 70 true]
    (fun r => decide (latencies r.2 = [2000, 500, 17000])) (by decide +kernel)
  exact ⟨tr, d, hr, served_run hr, of_decide_eq_true hp⟩

end Drive

end Nachos
