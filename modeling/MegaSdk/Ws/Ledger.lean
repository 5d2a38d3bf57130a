/-
  File:      MegaSdk/Ws/Ledger.lean
  Subject:   THE CHUNK MACs BETWEEN THE ENGINE AND THE CLIENT. A chunk's MAC travels with the chunk in
             flight; an ack or the completion frame confirms it, and `onProgress` merges what is
             confirmed into the transfer's map.

  * `Client`, `Act` -- the pool with the client's transfers; `onProgress` and `onComplete`;
  * `Regular` -- the interleavings without failures, and what the server may do;
  * `Ledger` -- the merged and the confirmed MACs are those of the acked chunks. A resumed upload has
    others in its map from before;
  * `Inv.exec` -- every step without a failure keeps the ledger of every upload. A merge must not
    bring a chunk that is folded already, as `finishedUploadChunks` asserts (`Unfolded`).
-/
import MegaSdk.Ws.Moves
import MegaSdk.Ws.Transfer

namespace MegaSdk.Ws

open Base Pool List

/-! ## 1. The client -/

/-- The pool, and the transfers of the client by file number. -/
structure Client where
  pool : Pool
  transfers : Nat → Option Transfer := fun _ => none

inductive Act
  | pool (op : Op)
  | enqueue (fileno : Nat) (t : Transfer)
  | onProgress (fileno : Nat)

namespace Client

def setTransfer (s : Client) (fileno : Nat) (t : Transfer) : Nat → Option Transfer :=
  fun n => if n = fileno then some t else s.transfers n

/-- One step. `onProgress` drains the confirmed MACs and merges them. -/
def exec (s : Client) : Act → Client
  | .pool op => { s with pool := s.pool.exec op }
  | .enqueue fileno t =>
    match s.pool.files fileno with
    | some _ => s
    | none =>
      { pool := s.pool.enqueue fileno t.upload, transfers := s.setTransfer fileno t }
  | .onProgress fileno =>
    match s.pool.files fileno, s.transfers fileno with
    | some f, some t =>
      match t.wsMergeDrainedChunkMacs f.mConfirmedChunkMacs with
      | some t' =>
        { pool := s.pool.exec (.drainConfirmedChunkMacs fileno)
          transfers := s.setTransfer fileno t' }
      | none => s
    | _, _ => s

/-- `onComplete`, up to the node key: the confirmed MACs are merged, and the file MAC is that of the
    transfer's map. -/
def onComplete (s : Client) (fileno : Nat) : Option (Transfer × Int) := do
  let f ← s.pool.files fileno
  let t ← s.transfers fileno
  let t ← t.wsMergeDrainedChunkMacs f.mConfirmedChunkMacs
  some (t, t.chunkmacs.macsmac t.transferkey)

def fresh (ackedChunkRewind resendDedupCancel : Bool) : Client where
  pool := Pool.fresh ackedChunkRewind resendDedupCancel

/-- `onComplete` finds the MAC of every chunk, and the file MAC is that of the whole file. -/
def WholeAt (s : Client) (n : Nat) : Prop :=
  ∃ t mac, s.onComplete n = some (t, mac) ∧ (∀ r ∈ fileChunks t.size, t.Holds r) ∧
    mac = fileMac t.transferkey t.ctriv t.content

/-- **Every completed upload** gets the MAC of its file. -/
def Whole (s : Client) : Prop :=
  ∀ n f, s.pool.files n = some f → f.mUploadCompletionTime.isSome = true → s.WholeAt n

end Client

/-- Every chunk of the file from the start of the attempt on was sent on some connection. -/
def WsUploadFile.AllSent (f : WsUploadFile) : Prop :=
  ∀ r ∈ fileChunks f.mSize, f.attempt.start ≤ r.1 → r ∈ f.attempt.sent

/-- A transfer that can be uploaded: its map holds MACs of chunks of the file, some of them folded,
    and among them those of all chunks before the start of the upload. -/
structure Transfer.Resumable (t : Transfer) : Prop where
  length : t.content.length = t.size
  int64 : t.size < 2 ^ 63
  start : AtChunk t.size t.start
  macs : ∃ plain, ChunkmacMap.MacInv t.transferkey t.chunkmacs plain ∧
    ChunkmacMap.Front t.chunkmacs plain ∧
      (∀ x ∈ plain.mMacMap.entries, ∃ r ∈ fileChunks t.size, x = ((r.1 : Int), t.record r)) ∧
        ∀ r ∈ fileChunks t.size, r.1 < t.start → ((r.1 : Int), t.record r) ∈ plain.mMacMap.entries

/-- The steps without failures. The server completes an upload when all of it was sent. -/
def Regular : Act → Client → Prop
  | .pool op, s => op.regular = true ∧
      ∀ n f, op.completes = some n → s.pool.findFile n = some f → f.AllSent
  | .enqueue _ t, _ => t.Resumable
  | .onProgress _, _ => True

def nonempty (l : List (Nat × Nat)) : List (Nat × Nat) := l.filter fun r => decide (0 < r.2)

/-- The chunks of file `n` that are queued for resend or in a worker's hands. -/
def Pool.waiting (p : Pool) (n : Nat) : List (Nat × Nat) :=
  nonempty ((p.mToResend.filter fun x => x.fileno == n).map (·.range)) ++
    (p.tasks.filter fun t => t.chunk.fileno == n).map (·.chunk.range)

/-- When a completion frame arrives, the map has the MACs of the file's chunks that wait. -/
def NoneMissing : Act → Client → Prop
  | .pool op, s => ∀ n f t, op.completes = some n → s.pool.findFile n = some f →
      s.transfers n = some t → ∀ r ∈ s.pool.waiting n, t.Holds r
  | _, _ => True

/-- The assertion of `finishedUploadChunks` holds at a merge, or at the merge of `onComplete` when
    the step is a completion frame. -/
def Unfolded : Act → Client → Prop
  | .pool op, s => ∀ n f t, op.completes = some n → (s.pool.exec op).files n = some f →
      s.transfers n = some t → t.Ahead f.mConfirmedChunkMacs
  | .enqueue .., _ => True
  | .onProgress n, s => ∀ f t, s.pool.files n = some f → s.transfers n = some t →
      t.Ahead f.mConfirmedChunkMacs

/-! ## 2. What is handed out, sent and in flight -/

namespace Pool

variable {op : Op} {s s' : Pool} {n : Nat} {f f' : WsUploadFile} {r : Nat × Nat} {u : NewUpload}

/-- The chunks are those of the file, and a chunk in flight carries its MAC. -/
structure Sound (s : Pool) : Prop where
  head : ∀ n f, s.files n = some f → AtChunk f.mSize f.mHeadPos
  handed : ∀ n f, s.files n = some f → ∀ r ∈ f.attempt.handed, r ∈ fileChunks f.mSize
  sent : ∀ n f, s.files n = some f → f.mUploadCompletionTime = none →
    ∀ r ∈ f.attempt.sent, 0 < r.2 → r ∈ f.attempt.handed
  flights : ∀ x ∈ s.flights, (x.1.len = 0 ∧ x.2 = {}) ∨
    (0 < x.1.len ∧ ∀ f, s.files x.1.fileno = some f → x.2 = f.macsOf x.1.range)
  tasks : ∀ t ∈ s.tasks, t.phase = .encrypting → ∀ f, s.files t.chunk.fileno = some f →
    t.macs = f.macsOf t.chunk.range

theorem Acct.handed (h : Acct s []) (hf : s.files n = some f)
    (hcomp : f.mUploadCompletionTime = none) (hr : 0 < r.2)
    (hpos : 0 < held s [] (isRange n r) (live n r f) + (f.attempt.acked.map (·.2)).count r) :
    r ∈ f.attempt.handed :=
  count_pos_iff.1 (lt_of_lt_of_le hpos (h.once n f hf hcomp r hr))

theorem mem_nonempty {l : List (Nat × Nat)} : r ∈ nonempty l ↔ r ∈ l ∧ 0 < r.2 := by
  simp [nonempty]

theorem mem_waiting : r ∈ s.waiting n ↔
    (0 < r.2 ∧ ∃ x ∈ s.mToResend, x.fileno = n ∧ x.range = r) ∨
      ∃ k ∈ s.tasks, k.chunk.fileno = n ∧ k.chunk.range = r := by
  simp only [Pool.waiting, mem_append, mem_nonempty, mem_map, mem_filter, beq_iff_eq,
    and_assoc, and_comm (b := 0 < r.2)]

/-- A chunk that waits is counted, in the queue or with the workers. -/
theorem Steady.waiting_pos (hs : Steady s) (hf : s.files n = some f) (hr : r ∈ s.waiting n) :
    0 < r.2 ∧ 0 < s.mToResend.countP (isRange n r) + s.tasks.countP (live n r f) := by
  rcases mem_waiting.1 hr with ⟨hpos, x, hx, hn, rfl⟩ | ⟨k, hk, hn, rfl⟩
  · have hone : 0 < s.mToResend.countP (isRange n x.range) :=
      countP_pos_iff.2 ⟨x, hx, isRange_iff.2 ⟨hn, rfl⟩⟩
    exact ⟨hpos, by omega⟩
  obtain ⟨hlen, g, hg, hobj, hnum⟩ := hs.tasks k hk
  rw [hn, hf] at hg
  cases hg
  have hone : 0 < s.tasks.countP (live n k.chunk.range f) :=
    countP_pos_iff.2 ⟨k, hk, live_iff.2 ⟨isRange_iff.2 ⟨hn, rfl⟩, hobj, hnum⟩⟩
  exact ⟨pos_of_ne_zero hlen, by omega⟩

theorem Acct.waiting_handed (h : Acct s []) (hs : Steady s) (hf : s.files n = some f)
    (hcomp : f.mUploadCompletionTime = none) (hr : r ∈ s.waiting n) : r ∈ f.attempt.handed := by
  obtain ⟨hlen, hpos⟩ := hs.waiting_pos hf hr
  refine h.handed hf hcomp hlen ?_
  unfold held
  omega

theorem Confirms.comp {F : List (WsChunk × ChunkmacMap)} (h : Confirms op F n f f')
    (hcomp : f'.mUploadCompletionTime = none) : f.mUploadCompletionTime = none := by
  cases h with
  | stays _ _ hc | acks _ _ _ _ _ _ _ hc | drained _ _ _ hc => rw [← hc, hcomp]
  | done _ _ _ _ hc => rw [hcomp] at hc; cases hc

theorem Sound.moves (h : Sound s) (ha : Acct s []) (hc : Cov s []) (hs : Steady s)
    (hm : Moves op s s') : Sound s' where
  head := by
    intro n f' hf'
    obtain ⟨f, hf, hch⟩ := hm.files.before hf'
    have hsize := (WsUploadFile.ident_eq hch.ident).2.2.2.1
    have hhead := h.head n f hf
    rw [hsize]
    rcases hch.handed with ⟨_, he⟩ | ⟨hne, _, he⟩
    · rwa [he]
    · rw [he]
      exact hhead.advance (lt_of_le_of_ne (hc.fileOk n f hf).head hne)
  handed := by
    intro n f' hf' r hr
    obtain ⟨f, hf, hch⟩ := hm.files.before hf'
    have hsize := (WsUploadFile.ident_eq hch.ident).2.2.2.1
    rw [hsize]
    rcases hch.handed with ⟨he, _⟩ | ⟨hne, he, _⟩
    · exact h.handed n f hf r (he ▸ hr)
    rw [he] at hr
    rcases mem_append.1 hr with hr | hr
    · exact h.handed n f hf r hr
    rw [mem_singleton.1 hr]
    refine mem_fileChunks.2 ⟨(h.head n f hf).resolve_left hne, ?_, rfl⟩
    exact lt_of_le_of_ne (hc.fileOk n f hf).head hne
  sent := by
    intro n f' hf' hcomp r hr hpos
    obtain ⟨f, hf, hch⟩ := hm.files.before hf'
    have hcomp' := hch.confirms.comp hcomp
    have hold : r ∈ f.attempt.handed := by
      rcases hch.sent r hr with hr | hr | ⟨t, ht, hn, rfl⟩
      · exact h.sent n f hf hcomp' r hr hpos
      · omega
      · exact ha.waiting_handed hs hf hcomp' (mem_waiting.2 (.inr ⟨t, ht, hn, rfl⟩))
    rcases hch.handed with ⟨he, _⟩ | ⟨_, he, _⟩
    · rwa [he]
    · rw [he]
      exact mem_append_left _ hold
  flights := by
    intro x hx
    rcases hm.flights x hx with hx | he | ⟨t, ht, hphase, rfl⟩
    · refine (h.flights x hx).imp id fun hx => ⟨hx.1, fun f' hf' => ?_⟩
      obtain ⟨f, hf, hch⟩ := hm.files.before hf'
      rw [hx.2 f hf, WsUploadFile.macsOf_congr hch.ident]
    · exact .inl he
    refine .inr ⟨pos_of_ne_zero (hs.tasks t ht).1, fun f' hf' => ?_⟩
    obtain ⟨f, hf, hch⟩ := hm.files.before hf'
    rw [WsUploadFile.macsOf_congr hch.ident]
    exact h.tasks t ht hphase f hf
  tasks := by
    intro t ht hphase f' hf'
    obtain ⟨f, hf, hch⟩ := hm.files.before hf'
    rw [WsUploadFile.macsOf_congr hch.ident]
    rcases hm.tasks t ht with ht | ⟨hread, _⟩ | ⟨_, g, hg, hmacs⟩
    · exact h.tasks t ht hphase f hf
    · rw [hread] at hphase
      cases hphase
    · cases hf.symm.trans hg
      exact hmacs

/-! A new upload is not bound and has nothing handed out. -/

theorem files_enqueue (hn : s.files n = none) (u) (m : Nat) :
    (s.enqueue n u).files m = if m = n then some (u.file s.nextObj) else s.files m := by
  unfold Pool.enqueue
  rw [hn]
  rfl

theorem mConns_enqueue (n u) : (s.enqueue n u).mConns = s.mConns := by
  unfold Pool.enqueue
  split <;> rfl

theorem Steady.enqueue (h : Steady s) (hn : s.files n = none) (u) : Steady (s.enqueue n u) := by
  refine ⟨?_, ?_, fun t ht => ?_⟩
  · simp only [files_enqueue hn]
    exact forall_setFile rfl h.unfailed
  · simp only [files_enqueue hn]
    exact forall_setFile nofun h.bound
  rw [tasks_congr (mConns_enqueue n u)] at ht
  obtain ⟨hlen, f, hf, hrest⟩ := h.tasks t ht
  refine ⟨hlen, f, ?_, hrest⟩
  rw [files_enqueue hn, if_neg fun he => by rw [he, hn] at hf; cases hf]
  exact hf

theorem Sound.enqueue (h : Sound s) (ha : Acct s []) (hs : Steady s) (hn : s.files n = none)
    {t : Transfer} (ht : t.Resumable) : Sound (s.enqueue n t.upload) := by
  have hfiles : ∀ m g, (s.enqueue n t.upload).files m = some g →
      (m = n ∧ g = t.upload.file s.nextObj) ∨ s.files m = some g := by
    intro m g hg
    rw [files_enqueue hn] at hg
    split_ifs at hg with hm
    · exact .inl ⟨hm, (Option.some.inj hg).symm⟩
    · exact .inr hg
  refine ⟨?_, ?_, ?_, fun x hx => ?_, fun k hk hphase g hg => ?_⟩
  · simp only [files_enqueue hn]
    exact forall_setFile ht.start h.head
  · simp only [files_enqueue hn]
    exact forall_setFile nofun h.handed
  · simp only [files_enqueue hn]
    exact forall_setFile nofun h.sent
  · rw [flights_congr (mConns_enqueue n _)] at hx
    refine (h.flights x hx).imp id fun hlen => ⟨hlen.1, fun g hg => ?_⟩
    rcases hfiles _ g hg with ⟨hxn, _⟩ | hg
    · -- no chunk of an unknown file is in flight
      have hzero := ha.untracked n hn x.1.range hlen.1
      have hfly : 0 < s.flights.countP fun y => isRange n x.1.range y.1 :=
        countP_pos_iff.2 ⟨x, hx, isRange_iff.2 ⟨hxn, rfl⟩⟩
      unfold queued held at hzero
      omega
    · exact hlen.2 g hg
  · rw [tasks_congr (mConns_enqueue n _)] at hk
    rcases hfiles _ g hg with ⟨hkn, _⟩ | hg
    · obtain ⟨_, f, hf, _⟩ := hs.tasks k hk
      rw [hkn, hn] at hf
      cases hf
    · exact h.tasks k hk hphase g hg

end Pool

/-! ## 3. The ledger of an upload -/

def ackedRanges (f : WsUploadFile) : List (Nat × Nat) := nonempty (f.attempt.acked.map (·.2))

/-- The transfer's map has the MACs of the chunks `early`, from before the upload, and `merged`; those
    of `todo` are confirmed and wait for the merge. `plain` is the map that is never folded. -/
structure Ledger (f : WsUploadFile) (t : Transfer) (early merged todo : List (Nat × Nat))
    (plain : ChunkmacMap) : Prop where
  key : f.mTransferKey = t.transferkey
  iv : f.mCtrIv = t.ctriv
  content : f.content = t.content
  size : f.mSize = t.size
  length : t.content.length = t.size
  int64 : t.size < 2 ^ 63
  confirmed : f.mConfirmedChunkMacs = todo.map t.macsOf
  nodup : (merged ++ todo).Nodup
  chunks : ∀ r ∈ merged ++ todo, r ∈ fileChunks t.size ∧ f.attempt.start ≤ r.1
  before : ∀ r ∈ fileChunks t.size, r.1 < f.attempt.start → r ∈ early
  macs : ChunkmacMap.MacInv t.transferkey t.chunkmacs plain
  front : ChunkmacMap.Front t.chunkmacs plain
  entries : ∀ x, x ∈ plain.mMacMap.entries ↔ ∃ r ∈ fileChunks t.size,
    (r ∈ early ∨ r ∈ merged) ∧ x = ((r.1 : Int), t.record r)

/-- The books of an upload: before its completion the merged and the confirmed MACs are those of the
    acked chunks, and after it they can be merged. In a `tight` one the map had no chunk from the
    start of the upload on. -/
def Booked (tight : Prop) (f : WsUploadFile) (t : Transfer) : Prop :=
  ∃ early merged todo plain, Ledger f t early merged todo plain ∧
    (tight → ∀ r ∈ early, r.1 < f.attempt.start) ∧
      (f.mUploadCompletionTime = none → merged ++ todo = ackedRanges f) ∧
        (f.mUploadCompletionTime.isSome = true → t.Ahead f.mConfirmedChunkMacs)

section Ledger

variable {f f' : WsUploadFile} {t : Transfer} {early merged todo : List (Nat × Nat)}
  {plain : ChunkmacMap} {r : Nat × Nat}

theorem Ledger.macsOf (h : Ledger f t early merged todo plain) : f.macsOf = t.macsOf := by
  funext r
  unfold WsUploadFile.macsOf Transfer.macsOf
  rw [h.key, h.iv, h.content]

theorem Ledger.extend (h : Ledger f t early merged todo plain) (hident : f'.ident = f.ident)
    {more : List (Nat × Nat)}
    (hconf : f'.mConfirmedChunkMacs = f.mConfirmedChunkMacs ++ more.map t.macsOf)
    (hnodup : (merged ++ todo ++ more).Nodup)
    (hmore : ∀ r ∈ more, r ∈ fileChunks t.size ∧ f.attempt.start ≤ r.1) :
    Ledger f' t early merged (todo ++ more) plain := by
  obtain ⟨hkey, hiv, hcontent, hsize, _, _, hstart⟩ := WsUploadFile.ident_eq hident
  exact
    { h with
      key := hkey.trans h.key
      iv := hiv.trans h.iv
      content := hcontent.trans h.content
      size := hsize.trans h.size
      confirmed := by rw [hconf, h.confirmed, map_append]
      nodup := by rwa [← append_assoc]
      chunks := by
        intro r hr
        rw [hstart]
        rw [← append_assoc] at hr
        rcases mem_append.1 hr with hr | hr
        · exact h.chunks r hr
        · exact hmore r hr
      before := by rw [hstart]; exact h.before }

/-- Applying the MACs of chunks in flight confirms those that hold a byte. -/
theorem foldl_applyMacs (L : List (WsChunk × ChunkmacMap)) (f : WsUploadFile)
    (h : ∀ x ∈ L, (x.1.len = 0 ∧ x.2 = {}) ∨ (0 < x.1.len ∧ x.2 = t.macsOf x.1.range)) :
    (L.foldl (fun f x => f.applyMacs x.2) f).mConfirmedChunkMacs =
      f.mConfirmedChunkMacs ++ (nonempty (L.map (·.1.range))).map t.macsOf := by
  induction L generalizing f with
  | nil => simp [nonempty]
  | cons x L ih =>
    rw [foldl_cons, ih _ fun y hy => h y (mem_cons_of_mem _ hy), map_cons]
    unfold nonempty WsUploadFile.applyMacs
    rw [filter_cons]
    rcases h x mem_cons_self with ⟨hlen, hx⟩ | ⟨hlen, hx⟩
    · rw [hx, if_neg (by decide), if_neg (by simp [WsChunk.range, hlen])]
    have hpos : decide (0 < x.1.range.2) = true := decide_eq_true hlen
    rw [hx, size_macsOf, if_pos (by decide), if_pos hpos, append_assoc]
    rfl

section

variable (h : Ledger f t early merged todo plain)
include h

section

variable (hr : r ∈ fileChunks t.size)
include hr

theorem Ledger.mem_plain {c : ChunkMAC} (hc : ((r.1 : Int), c) ∈ plain.mMacMap.entries) :
    (r ∈ early ∨ r ∈ merged) ∧ c = t.record r := by
  obtain ⟨r', hr', hcase, he⟩ := (h.entries _).1 hc
  have hpos : (r.1 : Int) = r'.1 := congrArg Prod.fst he
  have hsame := fileChunks_inj hr hr' (by exact_mod_cast hpos)
  subst hsame
  exact ⟨hcase, congrArg Prod.snd he⟩

/-- A chunk that the map does not have lies after the folded record. -/
theorem Ledger.after (hearly : r ∉ early) (hmerged : r ∉ merged) :
    t.chunkmacs.macsmacSoFarPos < r.1 := by
  obtain ⟨e, he⟩ := (mem_fileChunks.1 hr).1
  refine h.front.after he fun c hc => ?_
  rcases (h.mem_plain hr hc).1 with hmem | hmem
  · exact hearly hmem
  · exact hmerged hmem

/-- **The map holds the early chunks and the merged ones**, and no others. -/
theorem Ledger.holds_iff : t.Holds r ↔ r ∈ early ∨ r ∈ merged := by
  constructor
  · intro hholds
    by_contra hno
    have hafter := h.after hr (fun hm => hno (.inl hm)) fun hm => hno (.inr hm)
    rcases hholds with hfin | hle
    · obtain ⟨c, hc, _⟩ := ChunkmacMap.finishedAt_iff.1 hfin
      exact hno (h.mem_plain hr (h.macs.folded.mem_plain hc hafter)).1
    · omega
  intro hcase
  rcases h.macs.folded.mem_or_le ((h.entries _).2 ⟨r, hr, hcase, rfl⟩) with hmem | hle
  · exact .inl (ChunkmacMap.finishedAt_iff.2 ⟨_, hmem, rfl⟩)
  · exact .inr hle

end

/-- In a tight upload every merge is one of new chunks. -/
theorem Ledger.ahead_of_tight (htight : ∀ r ∈ early, r.1 < f.attempt.start) :
    t.Ahead f.mConfirmedChunkMacs := by
  rw [h.confirmed, Transfer.ahead_map]
  intro r hr
  obtain ⟨hmem, hge⟩ := h.chunks r (mem_append_right _ hr)
  refine h.after hmem (fun hearly => ?_) fun hmerged => ?_
  · exact absurd (htight r hearly) hge.not_gt
  · exact (disjoint_of_nodup_append h.nodup) hmerged hr

theorem Ledger.merge (hahead : t.Ahead f.mConfirmedChunkMacs) : ∃ m p plain',
      t.wsMergeDrainedChunkMacs f.mConfirmedChunkMacs = some { t with chunkmacs := m, pos := p } ∧
        Ledger { f with mConfirmedChunkMacs := [] } { t with chunkmacs := m, pos := p }
          early (merged ++ todo) [] plain' := by
  have hkeys : ∀ x ∈ plain.mMacMap.entries, x.1 < t.size := by
    intro x hx
    obtain ⟨r, hr, _, rfl⟩ := (h.entries x).1 hx
    exact Int.ofNat_lt.2 (mem_fileChunks.1 hr).2.1
  have hchunks : ∀ r ∈ todo, r ∈ fileChunks t.size := fun r hr =>
    (h.chunks r (mem_append_right _ hr)).1
  rw [h.confirmed, Transfer.ahead_map] at hahead
  obtain ⟨m, p, plain', hmerge, hinv, hfront, hentries⟩ := t.merge_spec h.macs h.front h.int64 hkeys
    hchunks hahead fun r hr c hc => (h.mem_plain (hchunks r hr) hc).2
  refine ⟨m, p, plain', h.confirmed ▸ hmerge, ?_⟩
  exact
    { h with
      confirmed := rfl
      nodup := by rw [append_nil]; exact h.nodup
      chunks := by rw [append_nil]; exact h.chunks
      macs := hinv
      front := hfront
      entries := fun x => by
        rw [hentries, h.entries]
        constructor
        · rintro (⟨r, hr, hcase, rfl⟩ | ⟨r, hr, rfl⟩)
          · exact ⟨r, hr, hcase.imp id (mem_append_left _), rfl⟩
          · exact ⟨r, hchunks r hr, .inr (mem_append_right _ hr), rfl⟩
        rintro ⟨r, hr, hearly | hmem, rfl⟩
        · exact .inl ⟨r, hr, .inl hearly, rfl⟩
        rcases mem_append.1 hmem with hmem | hmem
        · exact .inl ⟨r, hr, .inr hmem, rfl⟩
        · exact .inr ⟨r, hmem, rfl⟩ }

end

end Ledger

/-! ## 4. Steps of the pool -/

/-- The chunks of file `n` in flight, as ranges. -/
def Pool.flying (p : Pool) (n : Nat) : List (Nat × Nat) :=
  nonempty ((p.flights.filter fun x => x.1.fileno == n).map (·.1.range))

section Moves

variable {op : Op} {p p' : Pool} {n : Nat} {f f' : WsUploadFile} {t : Transfer}
  {early merged todo : List (Nat × Nat)} {plain : ChunkmacMap} {r : Nat × Nat}

theorem count_flying (hr : 0 < r.2) :
    (p.flying n).count r = p.flights.countP fun x => isRange n r x.1 := by
  unfold Pool.flying nonempty
  rw [count_filter (p := fun r : Nat × Nat => decide (0 < r.2)) (decide_eq_true hr),
    List.count, countP_map, countP_filter]
  refine countP_congr fun x _ => ?_
  simp [isRange, and_comm]

/-- **No chunk is acked or in flight twice**, and each was handed out. -/
theorem Pool.Acct.acked_flying (h : Acct p []) (hf : p.files n = some f)
    (hcomp : f.mUploadCompletionTime = none) : (ackedRanges f ++ p.flying n).Nodup ∧
      ∀ r ∈ ackedRanges f ++ p.flying n, r ∈ f.attempt.handed := by
  refine nodup_of_count_le (h.books n f hf hcomp).tiles.nodup fun r hr => ?_
  have hpos : 0 < r.2 := by
    rcases mem_append.1 hr with hr | hr <;> exact (mem_nonempty.1 hr).2
  have honce := h.once n f hf hcomp r hpos
  have hle : (ackedRanges f).count r ≤ (f.attempt.acked.map (·.2)).count r :=
    filter_sublist.count_le r
  rw [count_append, count_flying hpos]
  unfold held at honce
  omega

/-- The MACs of chunks in flight are confirmed, by an ack or by the completion. -/
theorem Ledger.confirm (h : Ledger f t early merged todo plain) (ha : Acct p []) (hs : Sound p)
    (hf : p.files n = some f) (hcomp : f.mUploadCompletionTime = none)
    (hacked : merged ++ todo = ackedRanges f) (hident : f'.ident = f.ident)
    {L : List (WsChunk × ChunkmacMap)} (hL : L.Sublist (p.flights.filter fun x => x.1.fileno == n))
    (hmacs : f'.mConfirmedChunkMacs =
      (L.foldl (fun f x => f.applyMacs x.2) f).mConfirmedChunkMacs) :
    Ledger f' t early merged (todo ++ nonempty (L.map (·.1.range))) plain := by
  obtain ⟨hnodup, hhanded⟩ := ha.acked_flying hf hcomp
  have hsub : (nonempty (L.map (·.1.range))).Sublist (p.flying n) := (hL.map _).filter _
  refine h.extend hident ?_ ?_ fun r hr => ?_
  · rw [hmacs]
    refine foldl_applyMacs L f fun x hx => ?_
    obtain ⟨hx, hn⟩ := mem_filter.1 (hL.subset hx)
    refine (hs.flights x hx).imp id fun hlen => ⟨hlen.1, ?_⟩
    rw [← h.macsOf]
    exact hlen.2 f (by rw [beq_iff_eq.1 hn]; exact hf)
  · rw [hacked]
    exact hnodup.sublist (hsub.append_left _)
  have hmem := hhanded r (mem_append_right _ (hsub.subset hr))
  rw [← h.size]
  exact ⟨hs.handed n f hf r hmem, ((ha.books n f hf hcomp).tiles.mem hmem).1⟩

/-- **Every chunk that was sent** is acked, in flight, or waits. -/
theorem acked_flying_or_waiting (hc : Cov p []) (ha : Acct p []) (hst : Steady p) (hs : Sound p)
    (hf : p.findFile n = some f) (hsent : f.AllSent) (hr : r ∈ fileChunks f.mSize)
    (hstart : f.attempt.start ≤ r.1) : r ∈ ackedRanges f ++ p.flying n ∨ r ∈ p.waiting n := by
  obtain ⟨hfile, hbound⟩ := findFile_eq_some.1 hf
  have hcomp := hst.bound n f hfile hbound
  have hlen := fileChunks_len_pos hr
  have hhanded := hs.sent n f hfile hcomp r (hsent r hr hstart) hlen
  have hhead := ((ha.books n f hfile hcomp).tiles.mem hhanded).2.2
  -- whatever covers the first byte of the chunk is the chunk
  have hsame : ∀ r', r' ∈ f.attempt.handed → Covers r' r.1 → r' = r := fun r' hr' hb =>
    fileChunks_unique (hs.handed n f hfile r' hr') hr hb ⟨le_rfl, by omega⟩
  have hpos : ∀ {r' : Nat × Nat}, Covers r' r.1 → 0 < r'.2 := by
    intro r' hb
    unfold Covers at hb
    omega
  obtain ⟨_, hall⟩ := ha.acked_flying hfile hcomp
  rcases hc.cover n f hfile hbound r.1 hstart (by omega) with ⟨a, hacked, hb⟩ | hheld
  · have hmem : a.2 ∈ ackedRanges f := mem_nonempty.2 ⟨mem_map_of_mem hacked, hpos hb⟩
    exact .inl (mem_append_left _
      (hsame a.2 (hall _ (mem_append_left _ hmem)) hb ▸ hmem))
  rcases located_of_holding hheld with ⟨x, hx, hn, hb⟩ | ⟨x, hx, hn, hb⟩ | ⟨k, hk, hn, hb⟩
  · have hmem : x.1.range ∈ p.flying n := mem_nonempty.2
      ⟨mem_map.2 ⟨x, mem_filter.2 ⟨hx, by simpa using hn⟩, rfl⟩, hpos hb⟩
    exact .inl (mem_append_right _
      (hsame _ (hall _ (mem_append_right _ hmem)) hb ▸ hmem))
  · have hmem : x.range ∈ p.waiting n := mem_waiting.2 (.inl ⟨hpos hb, x, hx, hn, rfl⟩)
    exact .inr (hsame _ (ha.waiting_handed hst hfile hcomp hmem) hb ▸ hmem)
  · have hmem : k.chunk.range ∈ p.waiting n := mem_waiting.2 (.inr ⟨k, hk, hn, rfl⟩)
    exact .inr (hsame _ (ha.waiting_handed hst hfile hcomp hmem) hb ▸ hmem)

/-- A chunk that waits is a chunk of the file, and neither acked nor in flight. -/
theorem waiting_chunk (ha : Acct p []) (hst : Steady p) (hs : Sound p)
    (hf : p.files n = some f) (hcomp : f.mUploadCompletionTime = none) (hr : r ∈ p.waiting n) :
    r ∈ fileChunks f.mSize ∧ r ∉ ackedRanges f ++ p.flying n := by
  have htiles := (ha.books n f hf hcomp).tiles
  obtain ⟨hpos, hheld⟩ := hst.waiting_pos hf hr
  have honce := ha.once n f hf hcomp r hpos
  have hle := nodup_iff_count_le_one.1 htiles.nodup r
  unfold held at honce
  have hhanded : r ∈ f.attempt.handed := count_pos_iff.1 (by omega)
  refine ⟨hs.handed n f hf r hhanded, fun hmem => ?_⟩
  have hcount := count_pos_iff.2 hmem
  have hacked : (ackedRanges f).count r ≤ (f.attempt.acked.map (·.2)).count r :=
    filter_sublist.count_le r
  rw [count_append, count_flying hpos] at hcount
  omega

end Moves

/-- The invariant of the runs without failures. -/
structure Client.Inv (tight : Prop) (s : Client) : Prop where
  cov : Cov s.pool []
  acct : Acct s.pool []
  steady : Steady s.pool
  sound : Sound s.pool
  booked : ∀ n f, s.pool.files n = some f → ∃ t, s.transfers n = some t ∧ Booked tight f t

namespace Client

variable {tight : Prop} {s s' : Client} {op : Op} {n : Nat} {f f' : WsUploadFile} {t : Transfer}
  {early merged todo : List (Nat × Nat)} {plain : ChunkmacMap}

/-- What a step of the pool does to the ledger of an upload. -/
theorem Inv.ledger_moves (h : Inv tight s) (hop : op.regular = true) (hf : s.pool.files n = some f)
    (hch : Change op s.pool.tasks s.pool.flights n f f') (hl : Ledger f t early merged todo plain)
    (hacked : f.mUploadCompletionTime = none → merged ++ todo = ackedRanges f) :
    ∃ todo', Ledger f' t early merged todo' plain ∧
      (f'.mUploadCompletionTime = none → merged ++ todo' = ackedRanges f') ∧
        ((f'.mUploadCompletionTime = f.mUploadCompletionTime ∧
            (f.mUploadCompletionTime.isSome = true → todo' = todo)) ∨
          op.completes = some n ∧ f.inPool = true ∧ f'.mUploadCompletionTime.isSome = true ∧
            merged ++ todo' = ackedRanges f ++ s.pool.flying n) := by
  cases hch.confirms with
  | stays ha hm hc =>
    refine ⟨todo, ?_, ?_, .inl ⟨hc, fun _ => rfl⟩⟩
    · have hstay : Ledger f' t early merged (todo ++ []) plain := hl.extend hch.ident
        (by simpa using hm) (by simpa using hl.nodup) nofun
      rwa [append_nil] at hstay
    · rwa [hc, ackedRanges, ha]
  | acks x hx hn event hbound ha hm hc =>
    have hcomp := h.steady.bound n f hf hbound
    have hL : [x].Sublist (s.pool.flights.filter fun x => x.1.fileno == n) :=
      singleton_sublist.2 (mem_filter.2 ⟨hx, by simpa using hn⟩)
    refine ⟨_, hl.confirm h.acct h.sound hf hcomp (hacked hcomp) hch.ident hL hm, fun _ => ?_,
      .inl ⟨hc, fun hsome => ?_⟩⟩
    · rw [← append_assoc, hacked hcomp, ackedRanges, ackedRanges, ha]
      unfold nonempty
      rw [map_append, filter_append]
      rfl
    · rw [hcomp] at hsome
      cases hsome
  | done hcompl hbound ha hm hc =>
    have hcomp := h.steady.bound n f hf hbound
    refine ⟨_, hl.confirm h.acct h.sound hf hcomp (hacked hcomp) hch.ident (List.Sublist.refl _) hm,
      fun hnone => ?_, .inr ⟨hcompl, hbound, hc, ?_⟩⟩
    · rw [hnone] at hc
      cases hc
    · rw [← append_assoc, hacked hcomp]
      rfl
  | drained hdrain _ _ _ =>
    rw [hdrain] at hop
    cases hop

theorem Inv.pool (h : Inv tight s) (hop : op.regular = true) (hun : Unfolded (.pool op) s) :
    Inv tight { s with pool := s.pool.exec op } := by
  have hm := moves_exec h.acct h.steady hop
  refine ⟨h.cov.exec (h.steady.freshFromStarted hop), h.acct.exec (h.steady.oneAttempt hop),
    h.steady.moves hm, h.sound.moves h.acct h.cov h.steady hm, fun n f' hf' => ?_⟩
  obtain ⟨f, hf, hch⟩ := hm.files.before hf'
  obtain ⟨t, ht, early, merged, todo, plain, hl, htight, hacked, hahead⟩ := h.booked n f hf
  obtain ⟨todo', hl', hacked', hcase⟩ := h.ledger_moves hop hf hch hl hacked
  refine ⟨t, ht, early, merged, todo', plain, hl', ?_, hacked', fun hsome => ?_⟩
  · rwa [(WsUploadFile.ident_eq hch.ident).2.2.2.2.2.2]
  rcases hcase with ⟨hc, htodo⟩ | ⟨hcompl, _⟩
  · rw [hc] at hsome
    rw [hl'.confirmed, htodo hsome, ← hl.confirmed]
    exact hahead hsome
  · exact hun n f' t hcompl hf' ht

/-! ## 5. New uploads and merges -/

/-- The map has no chunk from the start of the upload on. -/
def Tight : Act → Client → Prop
  | .enqueue _ t, _ => ∀ r ∈ fileChunks t.size, t.start ≤ r.1 → ¬ t.Holds r
  | _, _ => True

theorem booked_upload (ht : t.Resumable)
    (htight : tight → ∀ r ∈ fileChunks t.size, t.start ≤ r.1 → ¬ t.Holds r) (obj : Nat) :
    Booked tight (t.upload.file obj) t := by
  obtain ⟨plain, hinv, hfront, hentries, hbefore⟩ := ht.macs
  -- the chunks whose position the plain map has
  let early := (fileChunks t.size).filter fun r =>
    plain.mMacMap.entries.any fun x => x.1 == (r.1 : Int)
  have hearly : ∀ r ∈ fileChunks t.size,
      r ∈ early ↔ ((r.1 : Int), t.record r) ∈ plain.mMacMap.entries := by
    intro r hr
    rw [mem_filter, any_eq_true]
    constructor
    · rintro ⟨_, x, hx, hpos⟩
      obtain ⟨r', hr', rfl⟩ := hentries x hx
      have hpos' : (r'.1 : Int) = r.1 := beq_iff_eq.1 hpos
      rwa [fileChunks_inj hr hr' (by exact_mod_cast hpos'.symm)]
    · exact fun hx => ⟨hr, _, hx, beq_iff_eq.2 rfl⟩
  have hl : Ledger (t.upload.file obj) t early [] [] plain :=
    { key := rfl
      iv := rfl
      content := rfl
      size := rfl
      length := ht.length
      int64 := ht.int64
      confirmed := rfl
      nodup := nodup_nil
      chunks := nofun
      before := fun r hr hlt => (hearly r hr).2 (hbefore r hr hlt)
      macs := hinv
      front := hfront
      entries := fun x => by
        constructor
        · intro hx
          obtain ⟨r, hr, rfl⟩ := hentries x hx
          exact ⟨r, hr, .inl ((hearly r hr).2 hx), rfl⟩
        rintro ⟨r, hr, hmem | hmem, rfl⟩
        · exact (hearly r hr).1 hmem
        · cases hmem }
  refine ⟨early, [], [], plain, hl, fun ht r hr => ?_, fun _ => rfl, nofun⟩
  have hchunk := (mem_filter.1 hr).1
  by_contra hge
  exact htight ht r hchunk (not_lt.1 hge) ((hl.holds_iff hchunk).2 (.inl hr))

theorem Inv.enqueue (h : Inv tight s) (hn : s.pool.files n = none) (ht : t.Resumable)
    (htight : tight → ∀ r ∈ fileChunks t.size, t.start ≤ r.1 → ¬ t.Holds r) :
    Inv tight { pool := s.pool.enqueue n t.upload, transfers := s.setTransfer n t } := by
  refine ⟨h.cov.enqueue _, h.acct.enqueue _, h.steady.enqueue hn _,
    h.sound.enqueue h.acct h.steady hn ht, fun m f hf => ?_⟩
  dsimp only at hf ⊢
  rw [files_enqueue hn] at hf
  unfold setTransfer
  split_ifs at hf with hm
  · cases hf
    exact ⟨t, if_pos hm, booked_upload ht htight _⟩
  rw [if_neg hm]
  exact h.booked m f hf

theorem Inv.onProgress (h : Inv tight s) (hf : s.pool.files n = some f)
    (ht : s.transfers n = some t) (hahead : t.Ahead f.mConfirmedChunkMacs) {t' : Transfer}
    (hmerge : t.wsMergeDrainedChunkMacs f.mConfirmedChunkMacs = some t') :
    Inv tight
      { pool := s.pool.exec (.drainConfirmedChunkMacs n), transfers := s.setTransfer n t' } := by
  have hm : Moves (.drainConfirmedChunkMacs n) s.pool _ := moves_drain
  have hcov : Cov (s.pool.exec (.drainConfirmedChunkMacs n)) [] := h.cov.exec trivial
  have hacct : Acct (s.pool.exec (.drainConfirmedChunkMacs n)) [] := h.acct.exec trivial
  refine ⟨hcov, hacct, h.steady.moves hm,
    h.sound.moves h.acct h.cov h.steady hm, fun m g hg => ?_⟩
  replace hg : (s.pool.withFile n fun f => { f with mConfirmedChunkMacs := [] }).files m = some g :=
    hg
  rw [files_withFile] at hg
  unfold setTransfer
  dsimp only
  split_ifs at hg with hmn
  · rw [if_pos hmn]
    rw [hf] at hg
    cases hg
    obtain ⟨t₀, ht₀, early, merged, todo, plain, hl, htight, hacked, _⟩ := h.booked n f hf
    cases ht₀.symm.trans ht
    obtain ⟨m', p, plain', hmerge', hl'⟩ := hl.merge hahead
    cases hmerge'.symm.trans hmerge
    refine ⟨_, rfl, early, merged ++ todo, [], plain', hl', htight, ?_, nofun⟩
    rwa [append_nil]
  · rw [if_neg hmn]
    exact h.booked m g hg

/-- **Every step without a failure keeps the books.** -/
theorem Inv.exec (h : Inv tight s) {x : Act} (hreg : Regular x s) (hun : Unfolded x s)
    (htight : tight → Tight x s) : Inv tight (s.exec x) := by
  cases x with
  | pool op => exact h.pool hreg.1 hun
  | enqueue n t =>
    unfold Client.exec
    simp only
    split
    · exact h
    · rename_i hn
      exact h.enqueue hn hreg htight
  | onProgress n =>
    unfold Client.exec
    simp only
    split
    · rename_i f t hf ht
      split
      · rename_i t' hmerge
        exact h.onProgress hf ht (hun f t hf ht) hmerge
      · exact h
    · exact h

theorem inv_fresh (a d : Bool) : Inv tight (fresh a d) where
  cov := cov_fresh a d
  acct := acct_fresh a d
  steady :=
    { unfailed := nofun
      bound := nofun
      tasks := fun _ ht => by cases ht }
  sound :=
    { head := nofun
      handed := nofun
      sent := nofun
      flights := nofun
      tasks := fun _ ht => by cases ht }
  booked := nofun

end Client

end MegaSdk.Ws
