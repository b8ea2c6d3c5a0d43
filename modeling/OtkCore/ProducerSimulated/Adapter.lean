import OtkCore.EventModel
import Mathlib.Tactic.Ring

/-!
# The simulated detector

The detector adapter of the reference producer, with the builders and the counter of
the SDK it uses. It declares itself, reports itself healthy and then makes
detections over its timing points and subjects in turn. A call that is dropped
while it waits for the next detection is made again.
-/
namespace OtkCore.ProducerSimulated

inductive AdapterState
  | initializing
  | running
  | degraded
  | stopped
  | failed
  deriving DecidableEq, Repr

inductive AdapterEvent
  | detection (det : Detection)
  | health (event : DetectorHealthEvent)
  | metadata (event : AdapterMetadataEvent)
  deriving DecidableEq

inductive AdapterError
  | deviceNotFound (text : String)
  | deviceDisconnected
  | configuration (text : String)
  | io (text : String)
  deriving DecidableEq, Repr

def adapterEventToOtk : AdapterEvent → OtkEvent
  | .detection d => .detection d
  | .health h => .detectorHealth h
  | .metadata m => .adapterMetadata m

/-- What becomes of a call of `next_event`. -/
inductive NextEvent
  | ready (event : Option (Except AdapterError AdapterEvent))
  | dropped
  | panicked

/-- The readings of the clock by one call: its own, and that of a builder's `build`. -/
structure Clock where
  called : UInt64
  built : UInt64

/-- `next_event` is told what the clock says and whether its wait ends before the call
is dropped. -/
class DetectorAdapter (A : Type) where
  detectorId : A → DetectorId
  state : A → AdapterState
  start : A → Except AdapterError Unit × A
  stop : A → Except AdapterError Unit × A
  nextEvent : A → Clock → Bool → NextEvent × A

structure SequenceCounter where
  value : UInt64
  deriving DecidableEq

namespace SequenceCounter

def new : SequenceCounter := ⟨0⟩

/-- `none` is the panic on overflow. -/
def next (counter : SequenceCounter) : Option (UInt64 × SequenceCounter) :=
  if counter.value.toNat + 1 < 2 ^ 64 then some (counter.value, ⟨counter.value + 1⟩) else none

end SequenceCounter

structure DetectionBuilder where
  detectorId : DetectorId
  timingPointId : TimingPointId
  detectedAtNs : UInt64
  sequenceNumber : UInt64
  detectionId : Option DetectionId
  subjectId : Option SubjectId
  timebaseId : TimebaseId
  timestampingMethod : TimestampingMethod
  sourceAttestation : SourceAttestation
  sensor : SensorData
  detectedAtUncertaintyNs : Option UInt64

namespace DetectionBuilder

def new (detectorId : DetectorId) (timingPointId : TimingPointId) (detectedAtNs : UInt64)
    (sequenceNumber : UInt64) : DetectionBuilder where
  detectorId := detectorId
  timingPointId := timingPointId
  detectedAtNs := detectedAtNs
  sequenceNumber := sequenceNumber
  detectionId := none
  subjectId := none
  timebaseId := ⟨"local"⟩
  timestampingMethod := .adapterReceiveTime
  sourceAttestation := .operatorAsserted
  sensor := .loopTransponder none none
  detectedAtUncertaintyNs := none

def withSubjectId (b : DetectionBuilder) (id : SubjectId) : DetectionBuilder :=
  { b with subjectId := some id }

def withTimebaseId (b : DetectionBuilder) (id : TimebaseId) : DetectionBuilder :=
  { b with timebaseId := id }

def build (b : DetectionBuilder) (nowNs : UInt64) : Detection where
  detectionId := b.detectionId.getD
    ⟨b.detectorId.asStr ++ "-" ++ toString b.sequenceNumber⟩
  detectorId := b.detectorId
  timingPointId := b.timingPointId
  subjectId := b.subjectId
  detectedAtNs := b.detectedAtNs
  detectedAtUncertaintyNs := b.detectedAtUncertaintyNs
  receivedAtNs := some nowNs
  timestampingMethod := b.timestampingMethod
  timebaseId := b.timebaseId
  sourceAttestation := b.sourceAttestation
  sequenceNumber := b.sequenceNumber
  sensor := b.sensor

end DetectionBuilder

structure MetadataBuilder where
  detectorId : DetectorId
  timingPointId : TimingPointId
  timebaseId : TimebaseId
  sourceAttestation : SourceAttestation
  timestampingMethod : TimestampingMethod
  declaredResolutionNs : Option UInt64
  streams : List StreamDescriptor

namespace MetadataBuilder

def new (detectorId : DetectorId) (timingPointId : TimingPointId) : MetadataBuilder where
  detectorId := detectorId
  timingPointId := timingPointId
  timebaseId := ⟨"local"⟩
  sourceAttestation := .operatorAsserted
  timestampingMethod := .adapterReceiveTime
  declaredResolutionNs := none
  streams := []

def withTimebaseId (b : MetadataBuilder) (id : TimebaseId) : MetadataBuilder :=
  { b with timebaseId := id }

def withTimestampingMethod (b : MetadataBuilder) (method : TimestampingMethod) :
    MetadataBuilder :=
  { b with timestampingMethod := method }

def withSourceAttestation (b : MetadataBuilder) (attestation : SourceAttestation) :
    MetadataBuilder :=
  { b with sourceAttestation := attestation }

def build (b : MetadataBuilder) (nowNs : UInt64) : AdapterMetadataEvent where
  detectorId := b.detectorId
  timingPointId := b.timingPointId
  timebaseId := b.timebaseId
  sourceAttestation := b.sourceAttestation
  declaredAtNs := nowNs
  capabilities := ⟨b.streams, b.timestampingMethod, b.declaredResolutionNs⟩

end MetadataBuilder

structure HealthEventBuilder where
  detectorId : DetectorId
  status : DetectorHealthStatus
  message : Option String

namespace HealthEventBuilder

def healthy (detectorId : DetectorId) : HealthEventBuilder := ⟨detectorId, .healthy, none⟩

def build (b : HealthEventBuilder) (nowNs : UInt64) : DetectorHealthEvent :=
  ⟨b.detectorId, nowNs, b.status, b.message⟩

end HealthEventBuilder

structure SimulatorConfig where
  detectorId : String := "sim-detector-1"
  timingPointIds : List String := ["tp-start"]
  subjectIds : List String := []
  timebaseId : String := "local"
  count : Option UInt64 := none
  producerId : String := "otk-simulator"
  authToken : Option String := none
  deriving DecidableEq

inductive Phase
  | pendingMetadata
  | pendingHealth
  | generating (emitted : UInt64)
  | done
  deriving DecidableEq

structure SimulatorAdapter where
  config : SimulatorConfig
  state : AdapterState
  phase : Phase
  seq : SequenceCounter
  detectorId : DetectorId
  timebaseId : TimebaseId
  timingPointIds : List TimingPointId
  subjectIds : List SubjectId
  deriving DecidableEq

namespace SimulatorAdapter

def new (config : SimulatorConfig) : SimulatorAdapter where
  config := config
  state := .initializing
  phase := .pendingMetadata
  seq := .new
  detectorId := ⟨config.detectorId⟩
  timebaseId := ⟨config.timebaseId⟩
  timingPointIds := config.timingPointIds.map TimingPointId.mk
  subjectIds := config.subjectIds.map SubjectId.mk

def primaryTimingPoint (a : SimulatorAdapter) : TimingPointId :=
  a.timingPointIds.head?.getD ⟨"tp-default"⟩

def start (a : SimulatorAdapter) : Except AdapterError Unit × SimulatorAdapter :=
  if a.timingPointIds.isEmpty then
    (.error (.configuration "timing_point_ids must not be empty"), a)
  else (.ok (), { a with state := .running })

def stop (a : SimulatorAdapter) : Except AdapterError Unit × SimulatorAdapter :=
  (.ok (), { a with state := .stopped })

/-- The detection that is made once the wait is over. -/
def detect (a : SimulatorAdapter) (emitted seq : UInt64) (clock : Clock) : Detection :=
  let tpCount := max a.timingPointIds.length 1
  let tp := (a.timingPointIds[emitted.toNat % tpCount]?).getD ⟨"tp-default"⟩
  let builder := (DetectionBuilder.new a.detectorId tp clock.called seq).withTimebaseId
    a.timebaseId
  let subjectId :=
    if a.subjectIds.isEmpty then none else a.subjectIds[emitted.toNat % a.subjectIds.length]?
  match subjectId with
  | none => builder.build clock.built
  | some sid => (builder.withSubjectId sid).build clock.built

def nextEvent (a : SimulatorAdapter) (clock : Clock) (woken : Bool) :
    NextEvent × SimulatorAdapter :=
  match a.phase with
  | .pendingMetadata =>
    let event := (((MetadataBuilder.new a.detectorId a.primaryTimingPoint).withTimebaseId
      a.timebaseId).withTimestampingMethod .adapterReceiveTime).withSourceAttestation
        .operatorAsserted
    (.ready (some (.ok (.metadata (event.build clock.built)))), { a with phase := .pendingHealth })
  | .pendingHealth =>
    let event := (HealthEventBuilder.healthy a.detectorId).build clock.built
    (.ready (some (.ok (.health event))), { a with phase := .generating 0 })
  | .generating emitted =>
    if a.config.count.any (· ≤ emitted) then
      (.ready none, { a with phase := .done, state := .stopped })
    else if !woken then (.dropped, a)
    else
      match a.seq.next with
      | none => (.panicked, a)
      | some (seq, counter) =>
        (.ready (some (.ok (.detection (a.detect emitted seq clock)))),
          { a with seq := counter, phase := .generating (emitted + 1) })
  | .done => (.ready none, a)

instance : DetectorAdapter SimulatorAdapter where
  detectorId := SimulatorAdapter.detectorId
  state := SimulatorAdapter.state
  start := start
  stop := stop
  nextEvent := nextEvent

end SimulatorAdapter

namespace SimulatorConfig

variable (config : SimulatorConfig)

/-- Detection `j`, up to what the clock says. -/
def detection (j : ℕ) (clock : Clock) : Detection :=
  (SimulatorAdapter.new config).detect (.ofNat j) (.ofNat j) clock

/-- Event `n`: the declaration, the health report, then the detections. -/
def script : ℕ → Clock → AdapterEvent
  | 0, clock => .metadata ⟨⟨config.detectorId⟩, (SimulatorAdapter.new config).primaryTimingPoint,
      ⟨config.timebaseId⟩, .operatorAsserted, clock.built, ⟨[], .adapterReceiveTime, none⟩⟩
  | 1, clock => .health ⟨⟨config.detectorId⟩, clock.built, .healthy, none⟩
  | n + 2, clock => .detection (config.detection n clock)

/-- With `n` events made there are none left. -/
def Exhausted (n : ℕ) : Prop := ∃ c ∈ config.count, c.toNat + 2 ≤ n

/-- The adapter when it has made `n` events. -/
def after (n : ℕ) : SimulatorAdapter :=
  { SimulatorAdapter.new config with
    state := .running
    phase := match n with
      | 0 => .pendingMetadata
      | 1 => .pendingHealth
      | n + 2 => .generating (.ofNat n)
    seq := ⟨.ofNat (n - 2)⟩ }

theorem start_new : (SimulatorAdapter.new config).start =
    if config.timingPointIds = [] then
      (.error (.configuration "timing_point_ids must not be empty"), .new config)
    else (.ok (), config.after 0) := by
  rw [SimulatorAdapter.start]
  cases h : config.timingPointIds <;>
    simp [SimulatorAdapter.new, after, SequenceCounter.new, h]

variable {config}

theorem detection_detectorId (j : ℕ) (clock : Clock) :
    (config.detection j clock).detectorId = ⟨config.detectorId⟩ := by
  rw [detection, SimulatorAdapter.detect]
  split <;> rfl

theorem detection_sequenceNumber (j : ℕ) (clock : Clock) :
    (config.detection j clock).sequenceNumber = .ofNat j := by
  rw [detection, SimulatorAdapter.detect]
  split <;> rfl

theorem toNat_ofNat {n : ℕ} (hn : n < 2 ^ 64) : (UInt64.ofNat n).toNat = n :=
  UInt64.toNat_ofNat_of_lt' hn

theorem next_counter {n : ℕ} (hn : n + 1 < 2 ^ 64) :
    SequenceCounter.next ⟨.ofNat n⟩ = some (.ofNat n, ⟨.ofNat (n + 1)⟩) := by
  have hval : (UInt64.ofNat n).toNat = n := toNat_ofNat (by omega)
  have hadd : UInt64.ofNat n + 1 = UInt64.ofNat (n + 1) := by
    rw [UInt64.ofNat_add]
    rfl
  rw [SequenceCounter.next, if_pos (by rw [hval]; exact hn), hadd]

/-- What a call can do once `n` events are made: find that none are left, be dropped
while it waits with nothing changed, or make the next one. -/
theorem nextEvent_after (config : SimulatorConfig) {n : ℕ} (hn : n < 2 ^ 64) (clock : Clock)
    (woken : Bool) :
    (config.Exhausted n ∧ ∃ a, (config.after n).nextEvent clock woken = (.ready none, a)) ∨
    (¬ config.Exhausted n ∧ woken = false ∧
      (config.after n).nextEvent clock woken = (.dropped, config.after n)) ∨
    (¬ config.Exhausted n ∧ (config.after n).nextEvent clock woken =
      (.ready (some (.ok (config.script n clock))), config.after (n + 1))) := by
  rcases n with - | - | n
  · right
    right
    constructor
    · rintro ⟨c, -, hc⟩
      omega
    · rfl
  · right
    right
    constructor
    · rintro ⟨c, -, hc⟩
      omega
    · rfl
  · have hval : (UInt64.ofNat n).toNat = n := toNat_ofNat (by omega)
    have hspent : config.count.any (· ≤ UInt64.ofNat n) = true ↔ config.Exhausted (n + 2) := by
      rw [Exhausted]
      cases config.count with
      | none => simp
      | some c => simp [UInt64.le_iff_toNat_le, hval]
    have hcall : (config.after (n + 2)).nextEvent clock woken =
        if config.count.any (· ≤ UInt64.ofNat n) then
          (.ready none, { config.after (n + 2) with phase := .done, state := .stopped })
        else if !woken then (.dropped, config.after (n + 2))
        else (.ready (some (.ok (config.script (n + 2) clock))), config.after (n + 3)) := by
      have hnext := next_counter (n := n) (by omega)
      have hadd : UInt64.ofNat n + 1 = UInt64.ofNat (n + 1) := by
        rw [UInt64.ofNat_add]
        rfl
      simp only [SimulatorAdapter.nextEvent, after, Nat.add_sub_cancel, hnext, hadd]
      rfl
    rw [hcall]
    by_cases hex : config.Exhausted (n + 2)
    · left
      rw [if_pos (hspent.mpr hex)]
      exact ⟨hex, _, rfl⟩
    · right
      rw [if_neg (mt hspent.mp hex)]
      cases woken with
      | false => exact .inl ⟨hex, rfl, rfl⟩
      | true => exact .inr ⟨hex, rfl⟩

end SimulatorConfig

end OtkCore.ProducerSimulated
