/-
  File:      MegaSdk/Ws/Metamac.lean
  Subject:   THE FILE MAC OF A COMPLETED UPLOAD. The completion callback computes the node key from
             the transfer's chunk MACs; is the MAC of every chunk there?

  An ack confirms a chunk's MAC, a completion frame confirms what is still in flight, but a lost
  connection queues the chunk again without it. When the frame arrives while such a chunk waits, its
  MAC is missing for good (`metamac_lost`).

  * `wholeAt_iff` -- the callback finds every chunk iff each is in the map or confirmed;
  * `Inv.whole_exec_iff` -- a completion frame gives the right file MAC exactly when the map has the
    MACs of the chunks that wait;
  * `unfolded_of_run` -- the assertion of `finishedUploadChunks` holds for uploads that start with no
    MAC of a chunk that they are going to send;
  * `metamac_of_run` -- the file MAC over whole runs.
-/
import MegaSdk.Chunk.Pieces
import MegaSdk.Ws.Ledger

namespace MegaSdk.Ws

open Base Pool List

namespace Client

variable {tight : Prop} {s s' : Client} {op : Op} {n : Nat} {f f' : WsUploadFile} {t : Transfer}
  {early merged todo : List (Nat × Nat)} {plain : ChunkmacMap} {x : Act}

/-! ## 1. What `onComplete` finds -/

theorem onComplete_eq (hf : s.pool.files n = some f) (ht : s.transfers n = some t) {t' : Transfer}
    (hmerge : t.wsMergeDrainedChunkMacs f.mConfirmedChunkMacs = some t') :
    s.onComplete n = some (t', t'.chunkmacs.macsmac t'.transferkey) := by
  unfold Client.onComplete
  simp [hf, ht, hmerge]

theorem onComplete_congr (hf : s.pool.files n = some f) (hf' : s'.pool.files n = some f')
    (ht : s'.transfers n = s.transfers n)
    (hm : f'.mConfirmedChunkMacs = f.mConfirmedChunkMacs) : s'.onComplete n = s.onComplete n := by
  unfold Client.onComplete
  simp only [hf, hf', ht, hm, Option.bind_eq_bind, Option.bind_some]

theorem wholeAt_congr (h : s'.onComplete n = s.onComplete n) : s'.WholeAt n ↔ s.WholeAt n := by
  unfold WholeAt
  rw [h]

/-- **A completed upload gets the MAC of its file** exactly when each of its chunks is early, merged
    or confirmed. -/
theorem wholeAt_iff (hf : s.pool.files n = some f) (ht : s.transfers n = some t)
    (hl : Ledger f t early merged todo plain) (hahead : t.Ahead f.mConfirmedChunkMacs) :
    s.WholeAt n ↔ ∀ r ∈ fileChunks t.size, r ∈ early ∨ r ∈ merged ++ todo := by
  obtain ⟨m, p, plain', hmerge, hl'⟩ := hl.merge hahead
  have hcallback := onComplete_eq hf ht hmerge
  constructor
  · rintro ⟨t', mac, heq, hholds, _⟩ r hr
    cases hcallback.symm.trans heq
    exact (hl'.holds_iff hr).1 (hholds r hr)
  intro hall
  refine ⟨_, _, hcallback, fun r hr => (hl'.holds_iff hr).2 (hall r hr), ?_⟩
  refine hl'.macs.folded.macsmac_eq.trans (macsmac_whole _ t.ctriv t.content fun x => ?_)
  rw [hl'.entries, hl.length]
  constructor
  · rintro ⟨r, hr, _, rfl⟩
    exact ⟨r, hr, rfl⟩
  · rintro ⟨r, hr, rfl⟩
    exact ⟨r, hr, hall r hr, rfl⟩

theorem completes_exec {p : Pool} (hop : op.regular = true) (hcompl : op.completes = some n)
    (hf : p.findFile n = some f) :
    ∃ f', (p.exec op).files n = some f' ∧ f'.mUploadCompletionTime.isSome = true := by
  obtain ⟨c, pos, now, rfl⟩ : ∃ c pos now,
      op = .onmessage c n pos .uploadCompleted false true now := by
    unfold Op.completes at hcompl
    split at hcompl
    · rename_i c fileno pos headerOnly payloadOk now
      cases hcompl
      simp only [Op.regular, Bool.and_eq_true, Bool.not_eq_true'] at hop
      obtain ⟨⟨_, rfl⟩, rfl⟩ := hop
      exact ⟨c, pos, now, rfl⟩
    · cases hcompl
  have hexec : p.exec (.onmessage c n pos .uploadCompleted false true now) =
      p.complete n true now := by
    show p.onmessage c n pos .uploadCompleted false true now = _
    unfold Pool.onmessage
    rw [hf]
    rfl
  rw [hexec]
  unfold Pool.complete
  simp only [if_true]
  rw [files_unsetPool, if_pos rfl, files_withFile, if_pos rfl, files_applyInFlight, if_pos rfl,
    (findFile_eq_some.1 hf).1]
  exact ⟨_, rfl, rfl⟩

/-- **A completion frame leaves the right MAC** exactly when the map has the chunks that wait. -/
theorem Inv.completed_iff (h : Inv tight s) (hop : op.regular = true)
    (hun : Unfolded (.pool op) s) (hcompl : op.completes = some n)
    (hf : s.pool.findFile n = some f) (hsent : f.AllSent) (ht : s.transfers n = some t) :
    (s.exec (.pool op)).WholeAt n ↔ ∀ r ∈ s.pool.waiting n, t.Holds r := by
  obtain ⟨hfile, hbound⟩ := findFile_eq_some.1 hf
  have hcomp := h.steady.bound n f hfile hbound
  obtain ⟨f', hf', hdone⟩ := completes_exec hop hcompl hf
  obtain ⟨g, hg, hch⟩ := (moves_exec h.acct h.steady hop).files.before hf'
  cases hfile.symm.trans hg
  obtain ⟨t₀, ht₀, early, merged, todo, plain, hl, _, hacked, _⟩ := h.booked n f hfile
  cases ht₀.symm.trans ht
  obtain ⟨todo', hl', _, hcase⟩ := h.ledger_moves hop hfile hch hl hacked
  obtain ⟨_, _, _, hall⟩ := hcase.resolve_left fun hc => by
    rw [hc.1, hcomp] at hdone
    cases hdone
  rw [wholeAt_iff (s := s.exec (.pool op)) hf' ht hl' (hun n f' t hcompl hf' ht), hall]
  constructor
  · intro hwhole r hr
    obtain ⟨hchunk, hnot⟩ := waiting_chunk h.acct h.steady h.sound hfile hcomp hr
    rw [hl.size] at hchunk
    exact (hl.holds_iff hchunk).2 (.inl ((hwhole r hchunk).resolve_right hnot))
  intro hwait r hr
  by_cases hlt : r.1 < f.attempt.start
  · exact .inl (hl.before r hr hlt)
  rcases acked_flying_or_waiting h.cov h.acct h.steady h.sound hf hsent (hl.size ▸ hr)
    (not_lt.1 hlt) with hmem | hmem
  · exact .inr hmem
  refine ((hl.holds_iff hr).1 (hwait r hmem)).imp id fun hmerged => ?_
  rw [← hacked hcomp]
  exact mem_append_left _ (mem_append_left _ hmerged)

/-! ## 2. Runs -/

/-- A step of the pool that does not complete the upload leaves what `onComplete` finds. -/
theorem Inv.onComplete_pool (h : Inv tight s) (hop : op.regular = true)
    (hf : s.pool.files n = some f) (hf' : (s.pool.exec op).files n = some f')
    (hcomp : f.mUploadCompletionTime.isSome = true) :
    (s.exec (.pool op)).onComplete n = s.onComplete n ∧
      f'.mUploadCompletionTime.isSome = true := by
  obtain ⟨g, hg, hch⟩ := (moves_exec h.acct h.steady hop).files.before hf'
  cases hf.symm.trans hg
  have hunbound : f.inPool ≠ true := fun hb => by
    rw [h.steady.bound n f hf hb] at hcomp
    cases hcomp
  cases hch.confirms with
  | stays _ hm hc =>
    have hsame : (s.exec (.pool op)).onComplete n = s.onComplete n :=
      onComplete_congr hf hf' rfl hm
    exact ⟨hsame, hc ▸ hcomp⟩
  | acks _ _ _ _ hb => exact absurd hb hunbound
  | done _ hb => exact absurd hb hunbound
  | drained hdrain => rw [hdrain] at hop; cases hop

theorem Inv.whole_pool_iff (h : Inv tight s) (hreg : Regular (.pool op) s)
    (hun : Unfolded (.pool op) s) :
    (s.exec (.pool op)).Whole ↔ s.Whole ∧ NoneMissing (.pool op) s := by
  have hm := moves_exec h.acct h.steady hreg.1
  constructor
  · intro hwhole
    refine ⟨fun n f hf hcomp => ?_, fun n f t hcompl hf ht => ?_⟩
    · obtain ⟨f', hf', _⟩ := hm.files.2 n f hf
      obtain ⟨hsame, hcomp'⟩ := h.onComplete_pool hreg.1 hf hf' hcomp
      exact (wholeAt_congr hsame).1 (hwhole n f' hf' hcomp')
    · obtain ⟨f', hf', hdone⟩ := completes_exec hreg.1 hcompl hf
      exact (h.completed_iff hreg.1 hun hcompl hf (hreg.2 n f hcompl hf) ht).1
        (hwhole n f' hf' hdone)
  rintro ⟨hwhole, hnone⟩ n f' hf' hcomp'
  obtain ⟨f, hf, hch⟩ := hm.files.before hf'
  cases hcomp : f.mUploadCompletionTime with
  | some time =>
    have hsome : f.mUploadCompletionTime.isSome = true := by rw [hcomp]; rfl
    exact (wholeAt_congr (h.onComplete_pool hreg.1 hf hf' hsome).1).2 (hwhole n f hf hsome)
  | none =>
    obtain ⟨t, ht, early, merged, todo, plain, hl, _, hacked, _⟩ := h.booked n f hf
    obtain ⟨_, _, _, hcase⟩ := h.ledger_moves hreg.1 hf hch hl hacked
    obtain ⟨hcompl, hbound, _⟩ := hcase.resolve_left fun hc => by
      rw [hc.1, hcomp] at hcomp'
      cases hcomp'
    have hfind := findFile_eq_some.2 ⟨hf, hbound⟩
    exact (h.completed_iff hreg.1 hun hcompl hfind (hreg.2 n f hcompl hfind) ht).2
      (hnone n f t hcompl hfind ht)

theorem whole_enqueue_iff (hn : s.pool.files n = none) :
    Whole { pool := s.pool.enqueue n t.upload, transfers := s.setTransfer n t } ↔ s.Whole := by
  have hsame : ∀ m, m ≠ n → ∀ f, s.pool.files m = some f →
      Client.onComplete { pool := s.pool.enqueue n t.upload, transfers := s.setTransfer n t } m =
        s.onComplete m := by
    intro m hm f hf
    refine onComplete_congr hf ?_ (if_neg hm) rfl
    rw [files_enqueue hn, if_neg hm, hf]
  constructor
  · intro hwhole m f hf hcomp
    have hm : m ≠ n := fun he => by rw [he, hn] at hf; cases hf
    refine (wholeAt_congr (hsame m hm f hf)).1 (hwhole m f ?_ hcomp)
    rw [files_enqueue hn, if_neg hm, hf]
  intro hwhole m f hf hcomp
  rw [files_enqueue hn] at hf
  split at hf
  · cases hf
    cases hcomp
  · rename_i hm
    exact (wholeAt_congr (hsame m hm f hf)).2 (hwhole m f hf hcomp)

/-- A merge does early what `onComplete` would do. -/
theorem whole_onProgress_iff (hf : s.pool.files n = some f) (ht : s.transfers n = some t)
    {t' : Transfer} (hmerge : t.wsMergeDrainedChunkMacs f.mConfirmedChunkMacs = some t') :
    Whole { pool := s.pool.exec (.drainConfirmedChunkMacs n), transfers := s.setTransfer n t' } ↔
      s.Whole := by
  have hfiles : ∀ m, (s.pool.exec (.drainConfirmedChunkMacs n)).files m =
      if m = n then some { f with mConfirmedChunkMacs := [] } else s.pool.files m := by
    intro m
    show (s.pool.withFile n fun f => { f with mConfirmedChunkMacs := [] }).files m = _
    rw [files_withFile]
    split
    · rw [hf]
      rfl
    · rfl
  have hsame : ∀ m, Client.onComplete
      { pool := s.pool.exec (.drainConfirmedChunkMacs n), transfers := s.setTransfer n t' } m =
        s.onComplete m := by
    intro m
    by_cases hm : m = n
    · subst hm
      rw [onComplete_eq hf ht hmerge]
      exact onComplete_eq ((hfiles m).trans (if_pos rfl)) (if_pos rfl) rfl
    · unfold Client.onComplete setTransfer
      simp only [hfiles m, if_neg hm]
  constructor
  · intro hwhole m g hg hcomp
    refine (wholeAt_congr (hsame m)).1 ?_
    by_cases hm : m = n
    · subst hm
      cases hf.symm.trans hg
      exact hwhole m _ ((hfiles m).trans (if_pos rfl)) hcomp
    · exact hwhole m g ((hfiles m).trans ((if_neg hm).trans hg)) hcomp
  intro hwhole m g hg hcomp
  refine (wholeAt_congr (hsame m)).2 ?_
  replace hg := (hfiles m).symm.trans hg
  split at hg
  · rename_i hm
    cases hg
    exact hwhole m f (hm ▸ hf) hcomp
  · exact hwhole m g hg hcomp

/-- **Every step keeps the right MACs** exactly when no MAC is missing at its completion frame. -/
theorem Inv.whole_exec_iff (h : Inv tight s) (hreg : Regular x s) (hun : Unfolded x s) :
    (s.exec x).Whole ↔ s.Whole ∧ NoneMissing x s := by
  cases x with
  | pool op => exact h.whole_pool_iff hreg hun
  | enqueue n t =>
    unfold Client.exec NoneMissing
    simp only [and_true]
    split
    · exact .rfl
    · rename_i hn
      exact whole_enqueue_iff hn
  | onProgress n =>
    unfold Client.exec NoneMissing
    simp only [and_true]
    split
    · rename_i f t hf ht
      split
      · rename_i t' hmerge
        exact whole_onProgress_iff hf ht hmerge
      · exact .rfl
    · exact .rfl

theorem Inv.unfolded (h : Inv True s) (hreg : Regular x s) : Unfolded x s := by
  cases x with
  | pool op =>
    intro n f' t hcompl hf' ht
    obtain ⟨f, hf, hch⟩ := (moves_exec h.acct h.steady hreg.1).files.before hf'
    obtain ⟨t₀, ht₀, early, merged, todo, plain, hl, htight, hacked, _⟩ := h.booked n f hf
    cases ht₀.symm.trans ht
    obtain ⟨_, hl', _⟩ := h.ledger_moves hreg.1 hf hch hl hacked
    refine hl'.ahead_of_tight ?_
    rw [(WsUploadFile.ident_eq hch.ident).2.2.2.2.2.2]
    exact htight trivial
  | enqueue n t => trivial
  | onProgress n =>
    intro f t hf ht
    obtain ⟨t₀, ht₀, early, merged, todo, plain, hl, htight, _⟩ := h.booked n f hf
    cases ht₀.symm.trans ht
    exact hl.ahead_of_tight (htight trivial)

/-- **The assertion of `finishedUploadChunks` holds** in every run without failures whose uploads
    start with no MAC of a chunk that they are going to send. -/
theorem unfolded_of_run {a d : Bool} (hr : Relation.ReflTransGen
    (StepBy Client.exec fun x s => Regular x s ∧ Tight x s) (fresh a d) s)
    (hreg : Regular x s) : Unfolded x s := by
  have hinv : Inv True s := run_inv (Inv True)
    (fun s _ h ⟨x, hx, he⟩ => he ▸ h.exec hx.1 (h.unfolded hx.1) fun _ => hx.2) (inv_fresh a d) hr
  exact hinv.unfolded hreg

/-- So for these uploads it need not be asked for. -/
theorem run_of_tight {a d : Bool} (hr : Relation.ReflTransGen
    (StepBy Client.exec fun x s => Regular x s ∧ Tight x s ∧ NoneMissing x s) (fresh a d) s) :
    Relation.ReflTransGen
      (StepBy Client.exec fun x s => Regular x s ∧ Unfolded x s ∧ NoneMissing x s)
      (fresh a d) s := by
  induction hr with
  | refl => exact .refl
  | tail hr hstep ih =>
    obtain ⟨x, ⟨hreg, _, hnone⟩, he⟩ := hstep
    have hun := unfolded_of_run (run_weaken (fun _ _ hy => ⟨hy.1, hy.2.1⟩) hr) hreg
    exact ih.tail ⟨x, ⟨hreg, hun, hnone⟩, he⟩

/-- **The file MAC of a completed upload is that of the file**, in every run without failures in which
    the map has the MACs of the chunks that wait when a completion frame arrives. In such a run the
    next step keeps it so exactly when it meets that condition, too. -/
theorem metamac_of_run {a d : Bool} (hr : Relation.ReflTransGen
    (StepBy Client.exec fun x s => Regular x s ∧ Unfolded x s ∧ NoneMissing x s) (fresh a d) s) :
    s.Whole ∧ ∀ x, Regular x s → Unfolded x s → ((s.exec x).Whole ↔ NoneMissing x s) := by
  have hinv : Inv False s ∧ s.Whole := by
    refine run_inv (fun s => Inv False s ∧ s.Whole) ?_
      ⟨inv_fresh a d, nofun⟩ hr
    rintro s _ ⟨hinv, hwhole⟩ ⟨x, ⟨hreg, hun, hnone⟩, rfl⟩
    exact ⟨hinv.exec hreg hun False.elim, (hinv.whole_exec_iff hreg hun).2 ⟨hwhole, hnone⟩⟩
  refine ⟨hinv.2, fun x hreg hun => ?_⟩
  rw [hinv.1.whole_exec_iff hreg hun]
  exact and_iff_right hinv.2

/-! ## 3. A completion frame while a chunk waits -/

theorem resumable_of_empty (hlen : t.content.length = t.size) (hsize : t.size < 2 ^ 63)
    (hstart : t.start = 0) (hmacs : t.chunkmacs = {}) : t.Resumable where
  length := hlen
  int64 := hsize
  start := hstart ▸ atChunk_zero _
  macs := by
    rw [hmacs]
    refine ⟨{}, ChunkmacMap.plain_empty.inv, ?_, nofun, ?_⟩
    · exact ⟨by decide, fun _ _ hc hlt => absurd hlt hc.nonneg.not_gt⟩
    intro r _ hlt
    rw [hstart] at hlt
    cases hlt

theorem not_holds_of_empty (hmacs : t.chunkmacs = {}) (r : Nat × Nat) : ¬ t.Holds r := by
  unfold Transfer.Holds
  rw [hmacs]
  rintro (hfin | hle)
  · cases hfin
  · have hneg : (r.1 : Int) ≤ -1 := hle
    omega

theorem regular_pool (hop : op.regular = true) (hcompl : op.completes = none) :
    Regular (.pool op) s ∧ Tight (.pool op) s ∧ NoneMissing (.pool op) s :=
  ⟨⟨hop, fun _ _ hn => by rw [hcompl] at hn; cases hn⟩, trivial,
    fun _ _ _ hn => by rw [hcompl] at hn; cases hn⟩

/-- A file of zero bytes, under a cipher that changes nothing. -/
def zeros (size : Nat) : Transfer where
  size := size
  content := List.replicate size 0
  transferkey := id
  ctriv := 1

/-- A file of two chunks is sent, each chunk on a connection of its own. -/
def sentActs : List Act :=
  [.pool .newConn, .pool .newConn, .enqueue 0 (zeros 131073),
    .pool (.sendChunk 0 1 true false (some 0)), .pool (.finishRead 0 .ok 2),
    .pool (.finishEncrypt 0), .pool (.sendChunk 1 3 true false none),
    .pool (.finishRead 1 .ok 4), .pool (.finishEncrypt 1)]

/-- The completion frame of the file, on the second connection. -/
def completionFrame : Op := .onmessage 1 0 0 .uploadCompleted false true 6

theorem run_sentActs : Relation.ReflTransGen
    (StepBy Client.exec fun x s => Regular x s ∧ Tight x s ∧ NoneMissing x s)
    (fresh true true) (sentActs.foldl Client.exec (fresh true true)) :=
  run_of_allBy
    ⟨regular_pool rfl rfl, regular_pool rfl rfl,
      ⟨resumable_of_empty (length_replicate ..) (by decide) rfl rfl,
        fun r _ _ => not_holds_of_empty rfl r, trivial⟩,
      regular_pool rfl rfl, regular_pool rfl rfl, regular_pool rfl rfl, regular_pool rfl rfl,
      regular_pool rfl rfl, regular_pool rfl rfl, trivial⟩

theorem allSent_two (hsize : f.mSize = 131073)
    (hsent : f.attempt.sent = [(0, 131072), (131072, 1)]) : f.AllSent := by
  intro r hr _
  have hchunks : fileChunks 131073 = [(0, 131072), (131072, 1)] := rfl
  rwa [hsent, ← hchunks, ← hsize]

/-- The first chunk is acked and merged, the second is in flight when the frame arrives. -/
theorem metamac_of_run_two : ∃ s,
    Relation.ReflTransGen
      (StepBy Client.exec fun x s => Regular x s ∧ Unfolded x s ∧ NoneMissing x s)
      (fresh true true) s ∧
    (s.pool.files 0).map (·.mUploadCompletionTime) = some (some 6) ∧ s.Whole := by
  let s := [Act.pool (.onmessage 0 0 0 .chunkIngested false true 5), .onProgress 0].foldl
    Client.exec (sentActs.foldl Client.exec (fresh true true))
  have hack : Relation.ReflTransGen
      (StepBy Client.exec fun x s => Regular x s ∧ Tight x s ∧ NoneMissing x s)
      (fresh true true) s :=
    run_sentActs.trans
      (run_of_allBy ⟨regular_pool rfl rfl, ⟨trivial, trivial, trivial⟩, trivial⟩)
  have hframe : Regular (.pool completionFrame) s ∧ Tight (.pool completionFrame) s ∧
      NoneMissing (.pool completionFrame) s := by
    refine ⟨⟨rfl, fun n f hn hf => ?_⟩, trivial, fun n f t hn hf ht r hr => ?_⟩
    · cases hn
      cases hf
      exact allSent_two rfl rfl
    · -- no chunk waits
      cases hn
      cases hr
  have hrun := run_of_tight (hack.tail ⟨_, hframe, rfl⟩)
  exact ⟨_, hrun, rfl, (metamac_of_run hrun).1⟩

theorem rangeMac_zeros (size : Nat) (ctriv : UInt64) (r : Nat × Nat) :
    rangeMac id ctriv (List.replicate size 0) r = macInit ctriv := by
  unfold rangeMac
  rw [drop_replicate, take_replicate]
  exact cbcMac_id_zeros _ _

theorem fileMac_zeros_two : fileMac id 1 (List.replicate 131073 0) = 0 := by
  have hchunks : fileChunks 131073 = [(0, 131072), (131072, 1)] := rfl
  unfold fileMac
  rw [length_replicate]
  simp only [rangeMac_zeros]
  decide

theorem merge_second : (zeros 131073).wsMergeDrainedChunkMacs [(zeros 131073).macsOf (131072, 1)] =
    some { zeros 131073 with
      chunkmacs := ({} : ChunkmacMap).setEntry 131072 ((zeros 131073).record (131072, 1)) } := by
  have hfilter : [(zeros 131073).macsOf (131072, 1)].filter (fun m => m.size != 0) =
      [(zeros 131073).macsOf (131072, 1)] := by
    rfl
  unfold Transfer.wsMergeDrainedChunkMacs
  rw [hfilter]
  simp only [foldl_cons, finishedUploadChunks_macsOf]
  rfl

theorem macsmac_second : (({} : ChunkmacMap).setEntry 131072
    ((zeros 131073).record (131072, 1))).macsmac id ≠ 0 := by
  have hrecord : ((zeros 131073).record (131072, 1)) = { mac := macInit 1, finished := true } :=
    congrArg (fun mac => ({ mac := mac, finished := true } : ChunkMAC)) (rangeMac_zeros _ _ _)
  rw [hrecord]
  decide

/-- **A completion frame while the first chunk waits for a resend.** Its connection was lost after it
    was sent; the server has it, but its MAC is gone: the map of the transfer has no MAC of the chunk,
    and the file MAC is not that of the file. -/
theorem metamac_lost : ∃ s t mac,
    Relation.ReflTransGen (StepBy Client.exec Regular) (fresh true true) s ∧ ¬ s.Whole ∧
      s.onComplete 0 = some (t, mac) ∧ (0, 131072) ∈ fileChunks t.size ∧ ¬ t.Holds (0, 131072) ∧
        mac ≠ fileMac t.transferkey t.ctriv t.content := by
  let s := (sentActs.foldl Client.exec (fresh true true)).exec (.pool (.closeWS 0))
  have hsent : Relation.ReflTransGen (StepBy Client.exec Regular) (fresh true true)
      (sentActs.foldl Client.exec (fresh true true)) :=
    run_weaken (fun _ _ hx => hx.1) run_sentActs
  have hlost : Relation.ReflTransGen (StepBy Client.exec Regular) (fresh true true) s :=
    hsent.tail ⟨_, (regular_pool rfl rfl).1, rfl⟩
  have hframe : Regular (.pool completionFrame) s := by
    refine ⟨rfl, fun n f hn hf => ?_⟩
    cases hn
    cases hf
    exact allSent_two rfl rfl
  have hcomplete : (s.exec (.pool completionFrame)).onComplete 0 = _ :=
    onComplete_eq rfl rfl merge_second
  have hchunk : (0, 131072) ∈ fileChunks 131073 := mem_cons_self
  have hmissing : ¬ Transfer.Holds { zeros 131073 with
      chunkmacs := ({} : ChunkmacMap).setEntry 131072 ((zeros 131073).record (131072, 1)) }
      (0, 131072) := by
    rintro (hfin | hle)
    · cases hfin
    · exact absurd hle (by decide)
  refine ⟨_, _, _, hlost.tail ⟨_, hframe, rfl⟩, fun hwhole => ?_, hcomplete, hchunk, hmissing, ?_⟩
  · obtain ⟨t, mac, hcallback, hholds, _⟩ := hwhole 0 _ rfl rfl
    cases hcomplete.symm.trans hcallback
    exact hmissing (hholds _ hchunk)
  · exact fileMac_zeros_two.symm ▸ macsmac_second

end Client

end MegaSdk.Ws
