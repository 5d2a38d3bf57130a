/-
  File:      MegaSdk/Ws/Places.lean
  Subject:   WHERE THE CHUNKS OF A POOL ARE: in flight, queued for resend, or in a worker's hands.

  * `held s hand p q` -- how many chunks in flight or queued satisfy `p`, and how many tasks, of the
    workers and of `hand`, satisfy `q`; `hand` is what the code has in a local variable in the
    middle of a step;
  * one lemma for every primitive operation says what it does to that number (`held_setWorker`,
    `held_requeue`, `held_putInFlight`, `held_purgeFile_self`, `held_retryChunksOnTheWire`, …);
  * `Counted` -- the counter of chunks in flight is their number, kept by every primitive operation.
-/
import MegaSdk.Ws.Pool

namespace MegaSdk.Ws.Pool

open Base List Bool

variable {s : Pool} {c n : Nat}
variable {s' : Pool} {t : Task} {x : WsChunk × ChunkmacMap} {fileno pos : Nat}
variable (g : WsUploadFile → WsUploadFile) {f : WsUploadFile} {m now : Nat}

/-! ## 1. What the primitive operations leave alone -/

theorem files_setFile (s : Pool) (n) (f) (m) :
    (s.setFile n f).files m = if m = n then some f else s.files m := rfl

/-- What holds of the new upload and of the others before holds of all when one is set. -/
theorem forall_setFile {F : Nat → Option WsUploadFile} {P : Nat → WsUploadFile → Prop}
    {k : WsUploadFile} (hn : P n k) (h : ∀ m f, F m = some f → P m f) (m) (f)
    (hf : (if m = n then some k else F m) = some f) : P m f := by
  split at hf
  · rename_i hm
    cases hf
    exact hm ▸ hn
  · exact h m f hf

section

variable (s : Pool)

section

variable (n : Nat)

theorem files_withFile (g m) :
    (s.withFile n g).files m = if m = n then (s.files n).map g else s.files m := by
  unfold withFile
  split
  · rename_i f hf
    rw [files_setFile, hf, Option.map_some]
  rename_i hf
  split
  · rename_i h
    rw [h, hf, Option.map_none]
  · rfl

theorem withFile_id : s.withFile n id = s := by
  unfold withFile
  split
  · rename_i f hf
    have hfun : (fun m => if m = n then some (id f) else s.files m) = s.files := by
      funext m
      split_ifs with hm
      · rw [hm, hf, id]
      · rfl
    unfold setFile
    rw [hfun]
  · rfl

theorem refundUploadBudget_withFile (l) :
    (s.withFile n g).refundUploadBudget l = (s.refundUploadBudget l).withFile n g := by
  unfold withFile
  cases hf : s.files n with
  | none => rw [show (s.refundUploadBudget l).files n = none from hf]
  | some f =>
    rw [show (s.refundUploadBudget l).files n = some f from hf]
    rfl

@[simp] theorem mConns_withFile : (s.withFile n g).mConns = s.mConns := by
  unfold withFile
  split <;> rfl

@[simp] theorem mToResend_withFile (g) : (s.withFile n g).mToResend = s.mToResend := by
  unfold withFile
  split <;> rfl

@[simp] theorem mNumChunksInFlight_withFile :
    (s.withFile n g).mNumChunksInFlight = s.mNumChunksInFlight := by
  unfold withFile
  split <;> rfl

@[simp] theorem mUploadingFile_withFile : (s.withFile n g).mUploadingFile = s.mUploadingFile := by
  unfold withFile
  split <;> rfl

@[simp] theorem nextObj_withFile : (s.withFile n g).nextObj = s.nextObj := by
  unfold withFile
  split <;> rfl

@[simp] theorem nextObj_unsetPool : (s.unsetPool n).nextObj = s.nextObj :=
  nextObj_withFile _ _ _

end

theorem files_unsetPool (n m) : (s.unsetPool n).files m =
    if m = n then (s.files n).map fun f => { f with inPool := false } else s.files m :=
  files_withFile ..

@[simp] theorem mConns_unsetPool (n) : (s.unsetPool n).mConns = s.mConns :=
  mConns_withFile _ _ _

@[simp] theorem mToResend_unsetPool (n) :
    (s.unsetPool n).mToResend = s.mToResend := mToResend_withFile _ _ _

@[simp] theorem mNumChunksInFlight_unsetPool (n) :
    (s.unsetPool n).mNumChunksInFlight = s.mNumChunksInFlight := mNumChunksInFlight_withFile _ _ _

end

theorem mUploadingFile_unsetPool (h : (s.unsetPool n).mUploadingFile = some m) :
    m ≠ n ∧ s.mUploadingFile = some m := by
  unfold unsetPool at h
  split at h
  · cases h
  · rename_i hne
    exact ⟨fun hmn => hne (hmn ▸ h), h⟩

theorem findFile_eq_some : s.findFile n = some f ↔ s.files n = some f ∧ f.inPool = true := by
  rw [findFile, Option.filter_eq_some_iff]

theorem findFile_unsetPool : (s.unsetPool n).findFile n = none := by
  rw [findFile, files_unsetPool]
  cases s.files n <;> simp

theorem findFile_congr (h : s'.files = s.files) : s'.findFile n = s.findFile n := by
  rw [findFile, findFile, h]

theorem worker_lt (h : (s.conn c).worker = some t) : c < s.mConns.length := by
  by_contra hc
  rw [conn, cell_of_le (by omega)] at h
  cases h

theorem inFlight_lt (h : x ∈ (s.conn c).mChunksInFlight) : c < s.mConns.length := by
  by_contra hc
  rw [conn, cell_of_le (by omega)] at h
  cases h

theorem conn_setConn (hc : c < s.mConns.length) (x : WsConn) : (s.setConn c x).conn c = x := by
  rw [conn, setConn, cell_set hc, if_pos rfl]

theorem conn_setWorker_self (h : (s.conn c).worker = some t) :
    c < (s.setWorker c none).mConns.length ∧ ((s.setWorker c none).conn c).worker = none := by
  constructor
  · show c < (s.mConns.set c _).length
    rw [length_set]
    exact worker_lt h
  · rw [setWorker, conn_setConn (worker_lt h)]

theorem mem_flights : x ∈ s.flights ↔ ∃ c, x ∈ (s.conn c).mChunksInFlight := by
  exact mem_flatMap_cell_iff rfl

theorem mem_tasks : t ∈ s.tasks ↔ ∃ c, (s.conn c).worker = some t := by
  rw [tasks, mem_flatMap_cell_iff rfl]
  simp only [Option.mem_toList]
  rfl

theorem flights_congr (h : s'.mConns = s.mConns) : s'.flights = s.flights := by
  rw [flights, flights, h]

theorem tasks_congr (h : s'.mConns = s.mConns) : s'.tasks = s.tasks := by
  rw [tasks, tasks, h]

@[simp] theorem tasks_withFile :
    (s.withFile n g).tasks = s.tasks := tasks_congr (mConns_withFile _ _ _)

@[simp] theorem tasks_unsetPool : (s.unsetPool n).tasks = s.tasks :=
  tasks_congr (mConns_unsetPool _ _)

/-! ## 2. How many chunks are held -/

/-- How many chunks in flight or queued satisfy `p`, and how many tasks satisfy `q`. -/
def held (s : Pool) (hand : List Task) (p : WsChunk → Bool) (q : Task → Bool) : Nat :=
  s.flights.countP (fun x => p x.1) + s.mToResend.countP p + s.tasks.countP q + hand.countP q

variable {hand : List Task} {p : WsChunk → Bool} {q : Task → Bool} (event : WsApiServerEvent)
  {l : List (WsChunk × ChunkmacMap)} {w : Option Task}

theorem held_congr (hc : s'.mConns = s.mConns) (hr : s'.mToResend = s.mToResend) :
    held s' hand p q = held s hand p q := by
  unfold held flights tasks
  rw [hc, hr]

theorem held_le (hfl : s'.flights.Sublist s.flights) (hre : s'.mToResend.Sublist s.mToResend)
    (ht : s'.tasks = s.tasks) : held s' hand p q ≤ held s hand p q := by
  have h₁ := hfl.countP_le (p := fun x => p x.1)
  have h₂ := hre.countP_le (p := p)
  unfold held
  rw [ht]
  omega

@[simp] theorem held_withFile : held (s.withFile n g) hand p q = held s hand p q :=
  held_congr (mConns_withFile _ _ _) (mToResend_withFile _ _ _)

@[simp] theorem held_unsetPool : held (s.unsetPool n) hand p q = held s hand p q :=
  held_congr (mConns_unsetPool _ _) (mToResend_unsetPool _ _)

theorem flights_setWorker (w) : (s.setWorker c w).flights = s.flights :=
  flatMap_set_eq rfl

theorem tasks_setInFlight (l) :
    (s.setConn c { s.conn c with mChunksInFlight := l }).tasks = s.tasks :=
  flatMap_set_eq rfl

@[simp] theorem tasks_putInFlight (chunk : WsChunk) (macs : ChunkmacMap) :
    (s.putInFlight c chunk macs).tasks = s.tasks := by
  unfold Pool.putInFlight
  rw [tasks_withFile]
  exact tasks_setInFlight _

theorem tasks_retryChunksOnTheWire : (s.retryChunksOnTheWire c).tasks = s.tasks :=
  tasks_setInFlight []

@[simp] theorem tasks_takeNamed (x) : (s.takeNamed c x event).tasks = s.tasks := by
  unfold takeNamed
  split
  · rw [tasks_withFile]
    exact tasks_setInFlight _
  · exact tasks_setInFlight _

theorem mem_tasks_setWorker (h : t ∈ (s.setWorker c w).tasks) : w = some t ∨ t ∈ s.tasks := by
  obtain ⟨k, hk⟩ := mem_tasks.1 h
  by_cases hc : c < s.mConns.length
  · unfold conn setWorker setConn at hk
    rw [cell_set hc] at hk
    split at hk
    · exact .inl hk
    · exact .inr (mem_tasks.2 ⟨k, hk⟩)
  unfold conn setWorker setConn at hk
  rw [set_eq_of_length_le (by omega)] at hk
  exact .inr (mem_tasks.2 ⟨k, hk⟩)

theorem countP_tasks_setWorker (hc : c < s.mConns.length) (w) (q) :
    (s.setWorker c w).tasks.countP q + (s.conn c).worker.toList.countP q =
      s.tasks.countP q + w.toList.countP q :=
  countP_flatMap_set (fun x : WsConn => x.worker.toList) q hc _

theorem flights_newConn : ({ s with mConns := s.mConns ++ [{}] } : Pool).flights = s.flights := by
  simp [flights]

theorem tasks_newConn : ({ s with mConns := s.mConns ++ [{}] } : Pool).tasks = s.tasks := by
  simp [tasks]

theorem held_newConn : held { s with mConns := s.mConns ++ [{}] } hand p q = held s hand p q := by
  unfold held
  rw [flights_newConn, tasks_newConn]

theorem held_cons (t) : held s (t :: hand) p q = held s hand p q + (q t).toNat := by
  unfold held
  rw [countP_cons]
  cases q t <;> simp
  omega

theorem held_setWorker (hc : c < s.mConns.length) (w) :
    held (s.setWorker c w) ((s.conn c).worker.toList ++ hand) p q =
      held s (w.toList ++ hand) p q := by
  have hcount := countP_tasks_setWorker hc w q
  have hr : (s.setWorker c w).mToResend = s.mToResend := rfl
  unfold held
  rw [flights_setWorker, hr, countP_append, countP_append]
  omega

theorem held_takeWorker (h : (s.conn c).worker = some t) :
    held (s.setWorker c none) (t :: hand) p q = held s hand p q := by
  simpa [h] using held_setWorker (p := p) (q := q) (worker_lt h) none

theorem held_giveWorker (hc : c < s.mConns.length) (h : (s.conn c).worker = none) :
    held (s.setWorker c (some t)) hand p q = held s (t :: hand) p q := by
  simpa [h] using held_setWorker (p := p) (q := q) hc (some t)

theorem held_requeue (chunk : WsChunk) :
    held (s.requeue chunk) hand p q = held s hand p q + (p chunk).toNat := by
  have hf : (s.requeue chunk).flights = s.flights := rfl
  have ht : (s.requeue chunk).tasks = s.tasks := rfl
  unfold held
  rw [hf, ht, requeue, countP_append, countP_singleton]
  cases p chunk <;> simp
  omega

variable (hand p q) in
theorem held_setInFlight (hc : c < s.mConns.length) (l : List (WsChunk × ChunkmacMap)) :
    held (s.setConn c { s.conn c with mChunksInFlight := l }) hand p q +
        (s.conn c).mChunksInFlight.countP (fun x => p x.1) =
      held s hand p q + l.countP fun x => p x.1 := by
  have hf : (s.setConn c { s.conn c with mChunksInFlight := l }).flights.countP (fun x => p x.1) +
      (s.conn c).mChunksInFlight.countP (fun x => p x.1) =
        s.flights.countP (fun x => p x.1) + l.countP fun x => p x.1 :=
    countP_flatMap_set (fun x : WsConn => x.mChunksInFlight) (fun x => p x.1) hc _
  have ht : (s.setConn c { s.conn c with mChunksInFlight := l }).tasks.countP q +
      (s.conn c).worker.toList.countP q = s.tasks.countP q + (s.conn c).worker.toList.countP q :=
    countP_flatMap_set (fun x : WsConn => x.worker.toList) q hc _
  have hr : (s.setConn c { s.conn c with mChunksInFlight := l }).mToResend = s.mToResend := rfl
  unfold held
  rw [hr]
  omega

theorem countP_flights_putInFlight (hc : c < s.mConns.length) (chunk : WsChunk)
    (macs : ChunkmacMap) (p : WsChunk × ChunkmacMap → Bool) :
    (s.putInFlight c chunk macs).flights.countP p = s.flights.countP p + (p (chunk, macs)).toNat := by
  have hset := countP_flatMap_set (fun x : WsConn => x.mChunksInFlight) p hc
    { s.conn c with mChunksInFlight := (s.conn c).mChunksInFlight ++ [(chunk, macs)] }
  have hold : cell s.mConns c = s.conn c := rfl
  rw [hold, countP_append, countP_singleton] at hset
  rw [flights, putInFlight, mConns_withFile]
  show countP p ((s.mConns.set c _).flatMap _) = countP p (s.mConns.flatMap _) + _
  cases hp : p (chunk, macs) <;> simp only [hp, if_true, if_false, Bool.false_eq_true] at hset <;>
    simp <;> omega

variable (hand p q) in
theorem held_putInFlight (hc : c < s.mConns.length) (chunk : WsChunk) (macs : ChunkmacMap) :
    held (s.putInFlight c chunk macs) hand p q = held s hand p q + (p chunk).toNat := by
  have hr : (s.putInFlight c chunk macs).mToResend = s.mToResend := mToResend_withFile ..
  have hcount := countP_flights_putInFlight hc chunk macs fun x => p x.1
  dsimp only at hcount
  unfold held
  rw [hcount, tasks_putInFlight, hr]
  omega

/-! ## 3. Purging -/

theorem flights_purgeFile : (s.purgeFile n).flights = s.flights.filter fun x => x.1.fileno != n := by
  unfold flights purgeFile
  rw [filter_flatMap, flatMap_map]

@[simp] theorem tasks_purgeFile : (s.purgeFile n).tasks = s.tasks := by
  unfold tasks purgeFile
  rw [flatMap_map]

theorem and_fileno_ne (hp : ∀ c, c.fileno = n → p c = false) (c : WsChunk) :
    (p c && c.fileno != n) = p c := by
  by_cases h : c.fileno = n
  · rw [hp c h, Bool.false_and]
  · simp [h]

theorem held_purgeFile_of_ne (hp : ∀ c, c.fileno = n → p c = false) :
    held (s.purgeFile n) hand p q = held s hand p q := by
  have hr : (s.purgeFile n).mToResend = s.mToResend.filter fun c => c.fileno != n := rfl
  unfold held
  rw [flights_purgeFile, tasks_purgeFile, hr, countP_filter, countP_filter]
  simp [and_fileno_ne hp]

theorem held_purgeFile_self (hp : ∀ c, p c = true → c.fileno = n) :
    held (s.purgeFile n) hand p q = s.tasks.countP q + hand.countP q := by
  have hr : (s.purgeFile n).mToResend = s.mToResend.filter fun c => c.fileno != n := rfl
  have hnone : ∀ c : WsChunk, (p c && c.fileno != n) = false := by
    intro c
    cases hpc : p c
    · rfl
    · simp [hp c hpc]
  unfold held
  rw [flights_purgeFile, hr, countP_filter, countP_filter]
  simp only [hnone]
  simp

/-! ## 4. Losses and frames -/

variable (hand p q) in
/-- What a lost connection queues again, and what it does not because it is acked. -/
theorem held_retryChunksOnTheWire :
    held (s.retryChunksOnTheWire c) hand p q +
        ((s.conn c).mChunksInFlight.filter s.alreadyAcked).countP (fun x => p x.1) =
      held s hand p q := by
  have hsplit := countP_eq_countP_filter_add (s.conn c).mChunksInFlight (fun x => p x.1)
    s.alreadyAcked
  set l := (s.conn c).mChunksInFlight with hl
  have hresend : (s.retryChunksOnTheWire c).mToResend.countP p =
      s.mToResend.countP p + (l.filter fun x => !s.alreadyAcked x).countP fun x => p x.1 := by
    unfold retryChunksOnTheWire
    rw [countP_append, countP_map]
    rfl
  by_cases hc : c < s.mConns.length
  · have h := held_setInFlight hand p q hc []
    rw [countP_nil, ← hl] at h
    unfold held at h ⊢
    have hr : (s.setConn c { s.conn c with mChunksInFlight := [] }).mToResend = s.mToResend := rfl
    have hf : (s.retryChunksOnTheWire c).flights =
        (s.setConn c { s.conn c with mChunksInFlight := [] }).flights := rfl
    have ht : (s.retryChunksOnTheWire c).tasks =
        (s.setConn c { s.conn c with mChunksInFlight := [] }).tasks := rfl
    rw [hr] at h
    rw [hf, ht, hresend]
    omega
  have hnil : l = [] := by
    rw [hl, conn, cell_of_le (by omega)]
    rfl
  have hm : (s.retryChunksOnTheWire c).mConns = s.mConns := by
    unfold retryChunksOnTheWire setConn
    exact set_eq_of_length_le (by omega)
  unfold held flights tasks
  rw [hresend, hm, hnil]
  simp

theorem named_spec (h : s.named c fileno pos = some x) :
    x ∈ (s.conn c).mChunksInFlight ∧ x.1.pos = pos ∧ x.1.fileno = fileno := by
  have hx := find?_some h
  simp only [and_eq_true, beq_iff_eq] at hx
  exact ⟨mem_of_find?_eq_some h, hx.1, hx.2⟩

/-- The first chunk in flight with the named position and file number is the one found. -/
theorem countP_eraseP_named (h : s.named c fileno pos = some x) (r : WsChunk × ChunkmacMap → Bool) :
    ((s.conn c).mChunksInFlight.eraseP fun y =>
        y.1.pos == x.1.pos && y.1.fileno == x.1.fileno).countP r + (r x).toNat =
      (s.conn c).mChunksInFlight.countP r := by
  obtain ⟨_, hpos, hfileno⟩ := named_spec h
  rw [hpos, hfileno]
  obtain ⟨hx, as, bs, heq, has⟩ := find?_eq_some_iff_append.1 h
  rw [heq, eraseP_append_right _ (fun b hb => by simpa only [not_eq_true', not_eq_true] using has b hb), eraseP_cons,
    hx]
  simp only [countP_append, countP_cons]
  cases r x <;> simp
  omega

/-- What an ack does to the upload: its MACs are queued, and the range is recorded. -/
def ackFile (x : WsChunk × ChunkmacMap) (event : WsApiServerEvent) (f : WsUploadFile) :
    WsUploadFile :=
  let f := f.applyMacs x.2
  { f with attempt := { f.attempt with acked := f.attempt.acked ++ [(event, x.1.range)] } }

/-- The chunk leaves the list before the upload is changed; the other order gives the same. -/
theorem takeNamed_confirms (s : Pool) (c) (x) {event} (hev : event.confirms = true) :
    s.takeNamed c x event = (s.withFile x.1.fileno (ackFile x event)).takeNamed c x .crcFailed := by
  unfold takeNamed withFile
  rw [hev]
  cases hf : s.files x.1.fileno with
  | none => simp [setConn, hf]
  | some f => simp [setConn, setFile, hf, WsApiServerEvent.confirms, conn, ackFile]

theorem ackFile_eq (x event f) :
    ackFile x event f =
      { f with
        mConfirmedChunkMacs := (f.applyMacs x.2).mConfirmedChunkMacs
        attempt := { f.attempt with acked := f.attempt.acked ++ [(event, x.1.range)] } } := by
  unfold ackFile
  rw [WsUploadFile.applyMacs_eq]

theorem files_takeNamed_crcFailed (s : Pool) (c) (x) :
    (s.takeNamed c x .crcFailed).files = s.files := rfl

variable (hand p q) in
theorem held_takeNamed (h : s.named c fileno pos = some x) :
    held (s.takeNamed c x event) hand p q + (p x.1).toNat = held s hand p q := by
  have hx := (named_spec h).1
  have hset := held_setInFlight hand p q (inFlight_lt hx)
    ((s.conn c).mChunksInFlight.eraseP fun y =>
      y.1.pos == x.1.pos && y.1.fileno == x.1.fileno)
  have herase := countP_eraseP_named h fun y => p y.1
  have hsame : held (s.takeNamed c x event) hand p q =
      held (s.setConn c { s.conn c with
        mChunksInFlight := (s.conn c).mChunksInFlight.eraseP fun y =>
          y.1.pos == x.1.pos && y.1.fileno == x.1.fileno }) hand p q := by
    unfold takeNamed
    split
    · exact held_congr (mConns_withFile _ _ _) (mToResend_withFile _ _ _)
    · rfl
  rw [hsame]
  omega

theorem flights_applyInFlight :
    (s.applyInFlight n).flights = s.flights.filter fun x => x.1.fileno != n := by
  unfold flights applyInFlight
  rw [filter_flatMap, flatMap_map]

@[simp] theorem tasks_applyInFlight : (s.applyInFlight n).tasks = s.tasks := by
  unfold tasks applyInFlight
  rw [flatMap_map]

theorem files_applyInFlight (m) : (s.applyInFlight n).files m =
    if m = n then (s.files n).map fun f =>
      (s.flights.filter fun x => x.1.fileno == n).foldl (fun f x => f.applyMacs x.2) f
    else s.files m :=
  files_withFile ..

theorem mToResend_applyInFlight : (s.applyInFlight n).mToResend = s.mToResend :=
  mToResend_withFile s n _

/-- A completion leaves the chunks of the other files. -/
theorem held_applyInFlight_of_ne (hp : ∀ c, c.fileno = n → p c = false) :
    held (s.applyInFlight n) hand p q = held s hand p q := by
  unfold held
  rw [flights_applyInFlight, tasks_applyInFlight, mToResend_applyInFlight, countP_filter]
  simp [and_fileno_ne hp]

/-! ## 5. The loop over the queue -/

def Scan.rest : Scan → List WsChunk
  | .taken _ rest | .denied rest | .passed rest => rest

def Scan.chunk? : Scan → Option WsChunk
  | .taken chunk _ => some chunk
  | _ => none

@[simp] theorem Scan.rest_park (x : WsChunk) (r : Scan) : (r.park x).rest = x :: r.rest := by
  cases r <;> rfl

@[simp] theorem Scan.chunk?_park (x : WsChunk) (r : Scan) : (r.park x).chunk? = r.chunk? := by
  cases r <;> rfl

/-- An entry of the queue that the loop does not discard. -/
def Sendable (s : Pool) (x : WsChunk) : Prop :=
  ∃ f, s.findFile x.fileno = some f ∧ ¬ (x.len ≠ 0 ∧ x.pos + x.len > f.mSize)

/-- The loop keeps or takes every entry that it may send. -/
theorem countP_scanResend (budget : Bool) (p : WsChunk → Bool) (l : List WsChunk) :
    ∃ k, (s.scanResend budget l).rest.countP p + (s.scanResend budget l).chunk?.toList.countP p + k =
      l.countP p ∧ ((∀ x, p x = true → s.Sendable x) → k = 0) := by
  induction l with
  | nil => exact ⟨0, by simp [scanResend, Scan.rest, Scan.chunk?]⟩
  | cons x l ih =>
    obtain ⟨k, hk, hzero⟩ := ih
    have hdrop : ¬ s.Sendable x → (∀ x, p x = true → s.Sendable x) →
        k + (if p x = true then 1 else 0) = 0 :=
      fun h hp => by rw [hzero hp, if_neg fun hx => h (hp x hx)]
    rw [scanResend, countP_cons]
    split
    · rename_i hf
      exact ⟨_, by omega, hdrop fun ⟨f, hs, _⟩ => by rw [hf] at hs; cases hs⟩
    rename_i f hf
    split
    · rename_i hbig
      exact ⟨_, by omega, hdrop fun ⟨g, hs, hfit⟩ => by rw [hf] at hs; cases hs; exact hfit hbig⟩
    split
    · rw [Scan.rest_park, Scan.chunk?_park, countP_cons]
      exact ⟨k, by omega, hzero⟩
    split <;> exact ⟨0, by simp [Scan.rest, Scan.chunk?, countP_cons], fun _ => rfl⟩

theorem continuingUpload_completion
    (h : f.continuingUpload now = true) : f.mUploadCompletionTime = none := by
  unfold WsUploadFile.continuingUpload at h
  split at h
  · cases h
  · rename_i hcomp
    simpa using hcomp

theorem canReuse_spec (h : s.canReuse now = some n) :
    s.mUploadingFile = some n ∧ ∃ f, s.files n = some f ∧ f.mUploadCompletionTime = none := by
  unfold canReuse at h
  split at h
  · cases h
  rename_i m hm
  split at h
  · cases h
  rename_i f hf
  split at h
  · rename_i hcond
    cases h
    refine ⟨hm, f, hf, ?_⟩
    simp only [and_eq_true] at hcond
    exact continuingUpload_completion hcond.1.1.2
  · cases h

theorem mConns_getWsUploadFile (now) (pick : Option Nat) :
    (s.getWsUploadFile now pick).1.mConns = s.mConns := by
  unfold getWsUploadFile
  (repeat' split) <;> rfl

theorem mConns_freshChunk (budget : Bool) : (s.freshChunk n budget).1.mConns = s.mConns := by
  unfold freshChunk
  (repeat' split) <;> rfl

/-- An upload whose head position has moved over `k` bytes that are handed out. -/
def advanced (f : WsUploadFile) (eof : Bool) (k : Nat) : WsUploadFile :=
  { f with
    mEofSet := eof, mHeadPos := f.mHeadPos + k
    attempt := { f.attempt with handed := f.attempt.handed ++ [(f.mHeadPos, k)] } }

theorem ite_mEofSet {P : Prop} [Decidable P] (f : WsUploadFile) :
    (if P then { f with mEofSet := true } else f) =
      { f with mEofSet := if P then true else f.mEofSet } := by
  split <;> rfl

theorem mConns_nextChunk (now) (budget enginePaused : Bool) (pick : Option Nat) :
    (s.nextChunk now budget enginePaused pick).1.mConns = s.mConns := by
  unfold nextChunk
  split
  · rfl
  · rfl
  rename_i rest _
  simp only
  split
  · rfl
  have hget := mConns_getWsUploadFile (s := { s with mToResend := rest }) now pick
  generalize ({ s with mToResend := rest } : Pool).getWsUploadFile now pick = r at hget
  obtain ⟨s₁, picked⟩ := r
  cases picked with
  | none => exact hget
  | some n => exact (mConns_freshChunk budget).trans hget

/-! ## 6. The counter -/

/-- `mNumChunksInFlight` is the number of chunks in flight. -/
def Counted (s : Pool) : Prop := s.mNumChunksInFlight = s.flights.length

theorem decrement_of_le {n : Int} {k : Nat} (h : (k : Int) ≤ n) : decrement n k = n - k := by
  induction k generalizing n with
  | zero => simp [decrement]
  | succ k ih =>
    rw [decrement, ih (by omega)]
    omega

section

variable (h : Counted s)
include h

theorem Counted.congr (hc : s'.mConns = s.mConns)
    (hn : s'.mNumChunksInFlight = s.mNumChunksInFlight) : Counted s' := by
  unfold Counted flights at *
  rw [hn, h, hc]

theorem Counted.withFile : Counted (s.withFile n g) :=
  h.congr (mConns_withFile _ _ _) (mNumChunksInFlight_withFile _ _ _)

theorem Counted.unsetPool : Counted (s.unsetPool n) :=
  h.congr (mConns_unsetPool _ _) (mNumChunksInFlight_unsetPool _ _)

theorem Counted.setWorker (w) : Counted (s.setWorker c w) := by
  unfold Counted at *
  rwa [flights_setWorker]

/-- The list of one connection changes its length by what the counter changes. -/
theorem Counted.setInFlight (hc : c < s.mConns.length) {n : Int}
    (hm : s'.mConns = (s.setConn c { s.conn c with mChunksInFlight := l }).mConns)
    (hn : s'.mNumChunksInFlight = s.mNumChunksInFlight + n)
    (hl : (l.length : Int) = (s.conn c).mChunksInFlight.length + n) : Counted s' := by
  have hlen := countP_flatMap_set (fun x : WsConn => x.mChunksInFlight) (fun _ => true) hc
    { s.conn c with mChunksInFlight := l }
  simp only [countP_true] at hlen
  unfold Counted flights at *
  rw [hm]
  rw [conn] at hl
  dsimp only [setConn]
  omega

theorem Counted.retryChunksOnTheWire : Counted (s.retryChunksOnTheWire c) := by
  by_cases hc : c < s.mConns.length
  · exact h.setInFlight hc rfl rfl (by simp)
  have hnil : (s.conn c).mChunksInFlight = [] := by
    rw [conn, cell_of_le (by omega)]
    rfl
  refine h.congr (set_eq_of_length_le (by omega)) ?_
  show s.mNumChunksInFlight - _ = _
  rw [hnil]
  simp

theorem Counted.takeNamed (hx : s.named c fileno pos = some x) :
    Counted (s.takeNamed c x event) := by
  have hmem := (named_spec hx).1
  have hlen := countP_eraseP_named hx fun _ => true
  have hpos : 1 ≤ s.flights.length := length_pos_of_mem (mem_flights.2 ⟨c, hmem⟩)
  simp only [countP_true, toNat_true] at hlen
  have hnum : decrement s.mNumChunksInFlight 1 = s.mNumChunksInFlight + -1 :=
    decrement_of_le (by rw [h]; omega)
  have hcounted : Counted { s.setConn c
      { s.conn c with
        mChunksInFlight := (s.conn c).mChunksInFlight.eraseP fun y =>
          y.1.pos == x.1.pos && y.1.fileno == x.1.fileno } with
      mNumChunksInFlight := decrement s.mNumChunksInFlight 1 } :=
    h.setInFlight (inFlight_lt hmem) rfl hnum (by omega)
  unfold Pool.takeNamed
  split
  · exact hcounted.withFile _
  · exact hcounted

/-- Dropping the chunks of a file from all connections, with the counter decremented for each. -/
theorem Counted.dropFile (hf : s'.flights = s.flights.filter fun x => x.1.fileno != n)
    (hn : s'.mNumChunksInFlight = decrement s.mNumChunksInFlight
      (s.flights.countP fun x => x.1.fileno == n)) : Counted s' := by
  have hsplit := length_eq_countP_add_countP (fun x : WsChunk × ChunkmacMap => x.1.fileno == n)
    (l := s.flights)
  unfold Counted at *
  rw [hn, decrement_of_le (by rw [h]; omega), hf, ← countP_eq_length_filter]
  have hneg : s.flights.countP (fun x => x.1.fileno != n) =
      s.flights.countP (fun x => decide ¬ (x.1.fileno == n) = true) := by
    congr 1
    funext x
    rw [bne, decide_not, decide_eq_true]
  omega

theorem Counted.purgeFile : Counted (s.purgeFile n) :=
  h.dropFile flights_purgeFile rfl

theorem Counted.applyInFlight : Counted (s.applyInFlight n) := by
  refine h.dropFile flights_applyInFlight ?_
  show decrement _ _ = _
  rw [countP_eq_length_filter]

end

end MegaSdk.Ws.Pool
