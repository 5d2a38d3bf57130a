/-
  File:      MegaSdk/Nodes/ChildLookup.lean
  Subject:   LOOKING UP A CHILD BY NAME (`NodeManager::childNodeByNameType`).

  The lookup scans the children in memory, or, where there are many, asks the table first and the
  notification queue if the table has no row. A row may be stale: its node may have been renamed, moved
  or marked removed since, which is not checked (`lookup_of_renamed`). Nor does the scan check whether
  the node it finds is marked removed.

  * `childNodeByNameType` -- the lookup, with the query of the table as a parameter (`QuerySpec`);
  * `lookup_correct_iff` -- **the lookup is right, whichever row the query picks, exactly if the
    state is clean.**
-/
import MegaSdk.Nodes.Store

namespace MegaSdk.Nodes.NodeStore

open Base List OrdMap

/-! ## 1. The lookup -/

section Lookup

variable (s : NodeStore)

def scanMatch (name : String) (t : NodeType) (e : Nat × Bool) : Bool :=
  e.2 && match s.ram e.1 with
    | some n => n.image.type == t && name == n.image.displayname
    | none => false

/-- Every child in the list has a pointer to a loaded node. -/
def allInRam (m : OrdMap Nat Bool) : Bool :=
  m.entries.all fun e => e.2 && (s.ram e.1).isSome

variable (p : Nat)

def queueMatch (name : String) (t : NodeType) (h : Nat) : Bool :=
  match s.ram h with
  | some n => !n.removed && n.image.type == t && n.image.parenthandle == some p &&
      name == n.image.displayname
  | none => false

def inRam (h : Nat) : Option (Nat × NodeImage) := (s.ram h).map fun n => (h, n.image)

def fromRow (h : Nat) : Option (Nat × NodeImage) := (s.rows.get? h).map fun d => (h, d)

def childNodeByNameTypeInNotifyQueue (name : String) (t : NodeType) :
    Option (Nat × NodeImage) :=
  (s.mNodeNotify.find? (s.queueMatch p name t)).bind s.inRam

/-- The part of the lookup that asks the table. -/
def lookupInTable (query : Nat → String → NodeType → Option Nat) (skipRamScan : Bool) (p : Nat)
    (name : String) (t : NodeType) : Option (Nat × NodeImage) :=
  match query p name t with
  | none => if skipRamScan then s.childNodeByNameTypeInNotifyQueue p name t else none
  | some h =>
    if skipRamScan then
      match s.ram h with
      | some n => some (h, n.image)
      | none => s.fromRow h
    else s.fromRow h

/-- `childNodeByNameType_internal`: the handle and the contents of the node that is returned. -/
def childNodeByNameType (query : Nat → String → NodeType → Option Nat) (threshold p : Nat)
    (name : String) (t : NodeType) : Option (Nat × NodeImage) :=
  match (s.entry p).mChildren with
  | none =>
    if (s.entry p).mAllChildrenHandleLoaded then none else s.lookupInTable query false p name t
  | some m =>
    if threshold < m.size then s.lookupInTable query true p name t
    else
      match m.entries.find? (s.scanMatch name t) with
      | some e => s.inRam e.1
      | none =>
        if (s.entry p).mAllChildrenHandleLoaded && s.allInRam m then none
        else s.lookupInTable query false p name t

/-! ## 2. What it is to return -/

/-- The node currently is a child of `p` with the name and the type, and not removed. -/
def IsChild (name : String) (t : NodeType) (h : Nat) : Prop :=
  ∃ n, s.current h = some n ∧ n.removed = false ∧ n.image.parenthandle = some p ∧
    n.image.type = t ∧ n.image.displayname = name

/-- The row of the node has the parent, the name and the type. -/
def IsRow (name : String) (t : NodeType) (h : Nat) : Prop :=
  ∃ d, s.rows.get? h = some d ∧ d.parenthandle = some p ∧ d.storedName = name ∧ d.type = t

/-- The query returns a row of its choice if there is one. -/
structure QuerySpec (query : Nat → String → NodeType → Option Nat) : Prop where
  found : ∀ p name t h, query p name t = some h → s.IsRow p name t h
  missing : ∀ p name t, query p name t = none → ∀ h, ¬ s.IsRow p name t h

/-- A returned node is such a child, as it currently is, and null is returned only if there is none. -/
def Correct (name : String) (t : NodeType) (res : Option (Nat × NodeImage)) : Prop :=
  (∀ h d, res = some (h, d) → s.IsChild p name t h ∧ ∃ n, s.current h = some n ∧ n.image = d) ∧
    (res = none → ∀ h, ¬ s.IsChild p name t h)

/-! ## 3. The states in which it does -/

/-- No row with the parent, the name and the type is stale. -/
def NoStaleRow (name : String) (t : NodeType) : Prop :=
  ∀ h, s.IsRow p name t h → s.IsChild p name t h

/-- A node that the lookup by its row misses: it is being written by a running purge, or its row is
    encrypted, and has another name than the node, decrypted or not. -/
def Unseen (h : Nat) : Prop :=
  h ∈ s.nodesToReport ∨ ∃ d, s.rows.get? h = some d ∧ d.attrstring = true

/-- The table has a row, or no child that is not in memory is missed. -/
def RowsSeen (name : String) (t : NodeType) : Prop :=
  (∃ h, s.IsRow p name t h) ∨ ∀ h, s.ram h = none → s.IsChild p name t h → ¬ s.Unseen h

/-- The table has a row, the queue has a child, or no child is missed. -/
def QueueSeen (name : String) (t : NodeType) : Prop :=
  (∃ h, s.IsRow p name t h) ∨ (∃ h ∈ s.mNodeNotify, s.IsChild p name t h) ∨
    ∀ h, s.IsChild p name t h → ¬ s.Unseen h

/-- The condition, along the ways the lookup takes. -/
def Clean (threshold p : Nat) (name : String) (t : NodeType) : Prop :=
  match (s.entry p).mChildren with
  | none => (s.entry p).mAllChildrenHandleLoaded = true ∨ s.NoStaleRow p name t ∧ s.RowsSeen p name t
  | some m =>
    if threshold < m.size then s.NoStaleRow p name t ∧ s.QueueSeen p name t
    else
      match m.entries.find? (s.scanMatch name t) with
      | some e => ∀ n, s.ram e.1 = some n → n.removed = false
      | none => ((s.entry p).mAllChildrenHandleLoaded && s.allInRam m) = true ∨
          s.NoStaleRow p name t ∧ s.RowsSeen p name t

end Lookup

section Proofs

variable {s : NodeStore} {p h : Nat} {name : String} {t : NodeType}

/-! ## 4. The scan -/

theorem scanMatch_iff {e : Nat × Bool} : s.scanMatch name t e = true ↔
    e.2 = true ∧ ∃ n, s.ram e.1 = some n ∧ n.image.type = t ∧ n.image.displayname = name := by
  unfold scanMatch
  cases s.ram e.1 with
  | none => simp
  | some n =>
    simp only [Bool.and_eq_true, beq_iff_eq, Option.some.injEq, exists_eq_left']
    exact and_congr_right fun _ => and_congr_right fun _ => eq_comm

theorem Coherent.scan_found (hs : s.Coherent) {m : OrdMap Nat Bool}
    (hm : (s.entry p).mChildren = some m) {e : Nat × Bool}
    (he : m.entries.find? (s.scanMatch name t) = some e) :
    ∃ n, s.ram e.1 = some n ∧ n.image.parenthandle = some p ∧ n.image.type = t ∧
      n.image.displayname = name := by
  obtain ⟨-, n, hn, htype, hname⟩ := scanMatch_iff.1 (find?_some he)
  obtain ⟨n', hn', hpar⟩ := hs.lies.child p e.1 e.2
    ⟨m, hm, get?_eq_some.2 (mem_of_find?_eq_some he)⟩
  rw [current_of_ram hn] at hn'
  cases hn'
  exact ⟨n, hn, hpar, htype, hname⟩

theorem Coherent.not_in_ram (hs : s.Coherent) (hp : s.Known p)
    (he : ∀ m, (s.entry p).mChildren = some m → m.entries.find? (s.scanMatch name t) = none)
    (hc : s.IsChild p name t h) : s.ram h = none := by
  cases hn : s.ram h with
  | none => rfl
  | some n =>
    obtain ⟨n', hn', -, hpar, htype, hname⟩ := hc
    rw [current_of_ram hn] at hn'
    cases hn'
    obtain ⟨m, hm, hget⟩ := hs.lies.listed h n p hn hpar hp
    have := find?_eq_none.1 (he m hm) (h, true) (get?_eq_some.1 hget)
    exact absurd (scanMatch_iff.2 ⟨rfl, n, hn, htype, hname⟩) this

theorem IsChild.row (hc : s.IsChild p name t h) (hn : s.ram h = none) :
    ∃ d, s.rows.get? h = some d ∧ d.parenthandle = some p ∧ d.type = t ∧ d.displayname = name := by
  obtain ⟨n, hcur, -, hpar, htype, hname⟩ := hc
  unfold current at hcur
  rw [hn] at hcur
  obtain ⟨d, hd, rfl⟩ := Option.map_eq_some_iff.1 hcur
  exact ⟨d, hd, hpar, htype, hname⟩

theorem Coherent.none_of_all (hs : s.Coherent) (hp : s.Known p)
    (he : ∀ m, (s.entry p).mChildren = some m →
      m.entries.find? (s.scanMatch name t) = none ∧ s.allInRam m = true)
    (hall : (s.entry p).mAllChildrenHandleLoaded = true) (h) : ¬ s.IsChild p name t h := by
  intro hc
  have hnone := hs.not_in_ram hp (fun m hm => (he m hm).1) hc
  obtain ⟨d, hd, hpar, -, -⟩ := hc.row hnone
  obtain ⟨b, m, hm, hget⟩ := hs.lies.complete p h d hall hnone hd hpar hp
  have := all_eq_true.1 (he m hm).2 (h, b) (get?_eq_some.1 hget)
  rw [Bool.and_eq_true, hnone] at this
  exact Bool.false_ne_true this.2

/-! ## 5. The table -/

theorem exists_query (s : NodeStore) : ∃ query, s.QuerySpec query := by
  classical
  refine ⟨fun p name t => if hr : ∃ h, s.IsRow p name t h then some hr.choose else none, ?_, ?_⟩
  · intro p name t h hq
    split at hq
    · rename_i hr
      cases hq
      exact hr.choose_spec
    · cases hq
  intro p name t hq h hrow
  rw [dif_pos ⟨h, hrow⟩] at hq
  cases hq

theorem exists_query_of_row (hrow : s.IsRow p name t h) :
    ∃ query, s.QuerySpec query ∧ query p name t = some h := by
  obtain ⟨query, hq⟩ := s.exists_query
  refine ⟨fun p' name' t' => if p' = p ∧ name' = name ∧ t' = t then some h else query p' name' t',
    ⟨?_, ?_⟩, if_pos ⟨rfl, rfl, rfl⟩⟩
  · intro p' name' t' h' he
    split_ifs at he with hc
    · obtain ⟨rfl, rfl, rfl⟩ := hc
      cases he
      exact hrow
    · exact hq.found _ _ _ _ he
  intro p' name' t' he
  split at he
  · cases he
  · exact hq.missing _ _ _ he

/-- A child that is as its row says, and decrypted, has a row of its name. -/
theorem isRow_of_unchanged {d : NodeImage} (hd : s.rows.get? h = some d)
    (hpar : d.parenthandle = some p) (htype : d.type = t) (hname : d.displayname = name)
    (hkey : d.attrstring = false) : s.IsRow p name t h :=
  ⟨d, hd, hpar, (NodeImage.displayname_of_decrypted hkey).symm.trans hname, htype⟩

theorem not_unseen_iff : ¬ s.Unseen h ↔
    h ∉ s.nodesToReport ∧ ∀ d, s.rows.get? h = some d → d.attrstring = false := by
  simp [Unseen]

/-- Asking the table first, whatever is done if it has no row. -/
theorem lookup_iff {look : (Nat → String → NodeType → Option Nat) → Option (Nat × NodeImage)}
    (miss : Option (Nat × NodeImage)) {Seen : Prop}
    (hfound : ∀ query h, query p name t = some h → s.IsRow p name t h → ∃ d,
      look query = some (h, d) ∧ (s.IsChild p name t h → ∃ n, s.current h = some n ∧ n.image = d))
    (hmiss : ∀ query, query p name t = none → look query = miss)
    (hseen : (∀ h, ¬ s.IsRow p name t h) → (s.Correct p name t miss ↔ Seen)) :
    (∀ query, s.QuerySpec query → s.Correct p name t (look query)) ↔
      s.NoStaleRow p name t ∧ ((∃ h, s.IsRow p name t h) ∨ Seen) := by
  constructor
  · intro hall
    constructor
    · intro h hrow
      obtain ⟨query, hspec, hq⟩ := exists_query_of_row hrow
      obtain ⟨d, hres, -⟩ := hfound query h hq hrow
      exact ((hall query hspec).1 h d hres).1
    by_cases hrow : ∃ h, s.IsRow p name t h
    · exact .inl hrow
    obtain ⟨query, hspec⟩ := s.exists_query
    have hq : query p name t = none := by
      cases hq : query p name t with
      | none => rfl
      | some h => exact absurd ⟨h, hspec.found _ _ _ _ hq⟩ hrow
    have hres := hall query hspec
    rw [hmiss query hq] at hres
    exact .inr ((hseen (not_exists.1 hrow)).1 hres)
  rintro ⟨hstale, hcase⟩ query hspec
  cases hq : query p name t with
  | some h =>
    have hrow := hspec.found _ _ _ _ hq
    obtain ⟨d, hres, hcur⟩ := hfound query h hq hrow
    have hc := hstale h hrow
    rw [hres]
    refine ⟨fun h' d' he => ?_, nofun⟩
    cases he
    exact ⟨hc, hcur hc⟩
  | none =>
    have hnorow := hspec.missing _ _ _ hq
    rw [hmiss query hq]
    exact (hseen hnorow).2 (hcase.resolve_left fun ⟨h, hr⟩ => hnorow h hr)

theorem fromRow_eq {d : NodeImage} (hd : s.rows.get? h = some d) : s.fromRow h = some (h, d) := by
  unfold fromRow
  rw [hd]
  rfl

/-- Without the scan of the queue: no child is in memory. -/
theorem lookupInTable_false_iff (hram : ∀ h, s.IsChild p name t h → s.ram h = none) :
    (∀ query, s.QuerySpec query → s.Correct p name t (s.lookupInTable query false p name t)) ↔
      s.NoStaleRow p name t ∧ s.RowsSeen p name t := by
  refine lookup_iff none (fun query h hq hrow => ?_) (fun query hq => ?_) fun hnorow => ?_
  · obtain ⟨d, hd, -⟩ := hrow
    refine ⟨d, ?_, fun hc => ⟨_, current_of_row (hram h hc) hd, rfl⟩⟩
    rw [lookupInTable, hq]
    exact fromRow_eq hd
  · rw [lookupInTable, hq]
    rfl
  · refine ⟨fun hres h _ hc => absurd hc (hres.2 rfl h), fun hseen => ⟨nofun, fun _ h hc => ?_⟩⟩
    have hnone := hram h hc
    obtain ⟨d, hd, hpar, htype, hname⟩ := hc.row hnone
    have hkey := (not_unseen_iff.1 (hseen h hnone hc)).2 d hd
    exact hnorow h (isRow_of_unchanged hd hpar htype hname hkey)

theorem queueMatch_iff : s.queueMatch p name t h = true ↔ ∃ n, s.ram h = some n ∧
    n.removed = false ∧ n.image.parenthandle = some p ∧ n.image.type = t ∧
      n.image.displayname = name := by
  unfold queueMatch
  cases s.ram h with
  | none => simp
  | some n =>
    simp only [Bool.and_eq_true, Bool.not_eq_true', beq_iff_eq, Option.some.injEq,
      exists_eq_left']
    exact ⟨fun ⟨⟨⟨h₁, h₂⟩, h₃⟩, h₄⟩ => ⟨h₁, h₃, h₂, h₄.symm⟩,
      fun ⟨h₁, h₂, h₃, h₄⟩ => ⟨⟨⟨h₁, h₃⟩, h₂⟩, h₄.symm⟩⟩

theorem isChild_of_queueMatch (hm : s.queueMatch p name t h = true) : s.IsChild p name t h := by
  obtain ⟨n, hn, hrest⟩ := queueMatch_iff.1 hm
  exact ⟨n, current_of_ram hn, hrest⟩

theorem Coherent.queueMatch_of_isChild (hs : s.Coherent) (hq : h ∈ s.mNodeNotify)
    (hc : s.IsChild p name t h) : s.queueMatch p name t h = true := by
  obtain ⟨n, hn⟩ := hs.lies.loaded h (mem_append_left _ hq)
  obtain ⟨n', hn', hrest⟩ := hc
  rw [current_of_ram hn] at hn'
  cases hn'
  exact queueMatch_iff.2 ⟨n, hn, hrest⟩

/-- A child that is neither queued nor missed has a row of its name. -/
theorem Coherent.isRow_of_isChild (hs : s.Coherent) (hc : s.IsChild p name t h)
    (hq : h ∉ s.mNodeNotify) (hun : ¬ s.Unseen h) : s.IsRow p name t h := by
  obtain ⟨hreport, hkey⟩ := not_unseen_iff.1 hun
  cases hn : s.ram h with
  | none =>
    obtain ⟨d, hd, hpar, htype, hname⟩ := hc.row hn
    exact isRow_of_unchanged hd hpar htype hname (hkey d hd)
  | some n =>
    have hwrite : h ∉ s.toWrite := fun he => (mem_append.1 he).elim hq hreport
    obtain ⟨-, d, hd, hr⟩ := (hs.lies.pending h n hn).resolve_left hwrite
    obtain rfl : n.image = d := hr.resolve_right fun he => by simp [hkey d hd] at he
    obtain ⟨n', hn', -, hpar, htype, hname⟩ := hc
    rw [current_of_ram hn] at hn'
    cases hn'
    exact isRow_of_unchanged hd hpar htype hname (hkey _ hd)

/-- With the search of the queue behind the query. -/
theorem Coherent.lookupInTable_true_iff (hs : s.Coherent) :
    (∀ query, s.QuerySpec query → s.Correct p name t (s.lookupInTable query true p name t)) ↔
      s.NoStaleRow p name t ∧ s.QueueSeen p name t := by
  refine lookup_iff (s.childNodeByNameTypeInNotifyQueue p name t) (fun query h hq hrow => ?_)
    (fun query hq => ?_) fun hnorow => ?_
  · obtain ⟨d, hd, -⟩ := hrow
    rw [lookupInTable, hq]
    dsimp only
    cases hn : s.ram h with
    | some n => exact ⟨n.image, rfl, fun _ => ⟨n, current_of_ram hn, rfl⟩⟩
    | none => exact ⟨d, fromRow_eq hd, fun _ => ⟨_, current_of_row hn hd, rfl⟩⟩
  · rw [lookupInTable, hq]
    rfl
  unfold childNodeByNameTypeInNotifyQueue
  cases hf : s.mNodeNotify.find? (s.queueMatch p name t) with
  | some h =>
    have hmatch := find?_some hf
    have hc := isChild_of_queueMatch hmatch
    obtain ⟨n, hn, -⟩ := queueMatch_iff.1 hmatch
    have hobj : (some h).bind s.inRam = some (h, n.image) := by
      rw [Option.bind_some]
      unfold inRam
      rw [hn]
      rfl
    rw [hobj]
    refine ⟨fun _ => .inl ⟨h, mem_of_find?_eq_some hf, hc⟩, fun _ => ⟨fun h' d' he => ?_, nofun⟩⟩
    cases he
    exact ⟨hc, n, current_of_ram hn, rfl⟩
  | none =>
    -- nothing in the queue: a child would have a row
    have hnoqueue : ∀ h ∈ s.mNodeNotify, ¬ s.IsChild p name t h := fun h hmem hc =>
      find?_eq_none.1 hf h hmem (hs.queueMatch_of_isChild hmem hc)
    refine ⟨fun hres => .inr fun h hc => absurd hc (hres.2 rfl h),
      fun hseen => ⟨nofun, fun _ h hc => ?_⟩⟩
    have hun := hseen.resolve_left (fun ⟨h', hmem, hc'⟩ => hnoqueue h' hmem hc') h hc
    exact hnorow h (hs.isRow_of_isChild hc (fun hmem => hnoqueue h hmem hc) hun)

/-! ## 6. The lookup -/

theorem correct_none (hno : ∀ h, ¬ s.IsChild p name t h) : s.Correct p name t none :=
  ⟨fun _ _ he => (by cases he), fun _ => hno⟩

/-- **The lookup is right exactly in the clean states**, whichever row the query picks. -/
theorem Coherent.correct_iff_clean (hs : s.Coherent) (hp : s.Known p) (threshold : Nat) :
    (∀ query, s.QuerySpec query →
      s.Correct p name t (s.childNodeByNameType query threshold p name t)) ↔
        s.Clean threshold p name t := by
  unfold childNodeByNameType Clean
  cases hm : (s.entry p).mChildren with
  | none =>
    dsimp only
    split_ifs with hall
    · exact ⟨fun _ => .inl hall, fun _ _ _ => correct_none (hs.none_of_all hp (by simp [hm]) hall)⟩
    rw [or_iff_right hall]
    exact lookupInTable_false_iff fun h => hs.not_in_ram hp (by simp [hm])
  | some m =>
    dsimp only
    split
    · exact hs.lookupInTable_true_iff
    cases he : m.entries.find? (s.scanMatch name t) with
    | some e =>
      dsimp only
      obtain ⟨n, hn, hpar, htype, hname⟩ := hs.scan_found hm he
      have hobj : s.inRam e.1 = some (e.1, n.image) := by
        unfold inRam
        rw [hn]
        rfl
      rw [hobj]
      constructor
      · intro hall n' hn'
        cases hn.symm.trans hn'
        obtain ⟨query, hspec⟩ := s.exists_query
        obtain ⟨n', hn', hrem, -⟩ := ((hall query hspec).1 e.1 n.image rfl).1
        rw [current_of_ram hn] at hn'
        cases hn'
        exact hrem
      intro hrem query _
      refine ⟨fun h d hd => ?_, nofun⟩
      cases hd
      exact ⟨⟨n, current_of_ram hn, hrem n hn, hpar, htype, hname⟩, n, current_of_ram hn, rfl⟩
    | none =>
      dsimp only
      split_ifs with hall
      · rw [Bool.and_eq_true] at hall
        exact ⟨fun _ => .inl (by simp [hall]), fun _ _ _ =>
          correct_none (hs.none_of_all hp (by rw [hm]; rintro _ ⟨⟩; exact ⟨he, hall.2⟩) hall.1)⟩
      rw [or_iff_right hall]
      exact lookupInTable_false_iff fun h => hs.not_in_ram hp (by rw [hm]; rintro _ ⟨⟩; exact he)

theorem Correct.isSome_eq {res res' : Option (Nat × NodeImage)} (hc : s.Correct p name t res)
    (hc' : s.Correct p name t res') : res.isSome = res'.isSome := by
  cases res with
  | none =>
    cases res' with
    | none => rfl
    | some e => exact absurd (hc'.1 e.1 e.2 rfl).1 (hc.2 rfl e.1)
  | some e =>
    cases res' with
    | none => exact absurd (hc.1 e.1 e.2 rfl).1 (hc'.2 rfl e.1)
    | some e' => rfl

/-- **The lookup over rows and memory.** It is right for every query exactly if the state is clean,
    and among the thresholds for which the state is clean the answer does not change. -/
theorem lookup_correct_iff (hs : s.Coherent) (hp : s.Known p) (name : String) (t : NodeType)
    (threshold : Nat) :
    ((∀ query, s.QuerySpec query →
        s.Correct p name t (s.childNodeByNameType query threshold p name t)) ↔
          s.Clean threshold p name t) ∧
      ∀ threshold', s.Clean threshold p name t → s.Clean threshold' p name t →
        ∀ query, s.QuerySpec query →
          (s.childNodeByNameType query threshold p name t).isSome =
            (s.childNodeByNameType query threshold' p name t).isSome := by
  refine ⟨hs.correct_iff_clean hp threshold, fun threshold' hc hc' query hq => ?_⟩
  exact ((hs.correct_iff_clean hp threshold).2 hc query hq).isSome_eq
    ((hs.correct_iff_clean hp threshold').2 hc' query hq)

end Proofs

/-- A folder with one file `a`, which is renamed to `b` after both were loaded. -/
def renamed : NodeStore :=
  [Op.load 1, .loadChildren 1, .setattr 2 false (some "b")].foldl exec
    { rows := (OrdMap.empty.insert 1 { parenthandle := none, type := .rootnode, n := some "r" }).insert 2
        { parenthandle := some 1, type := .filenode, n := some "a" } }

theorem coherent_renamed : renamed.Coherent :=
  coherent_of_run (run_of_allBy ⟨trivial, trivial, trivial, trivial⟩)

theorem lookup_correct_iff_renamed : renamed.Coherent ∧ renamed.Known 1 ∧
    renamed.Clean 5 1 "b" .filenode ∧ ∀ query, renamed.QuerySpec query →
      renamed.Correct 1 "b" .filenode (renamed.childNodeByNameType query 5 1 "b" .filenode) := by
  have hknown : renamed.Known 1 := by decide
  have hclean : renamed.Clean 5 1 "b" .filenode := by
    intro n hn
    cases hn
    rfl
  exact ⟨coherent_renamed, hknown, hclean,
    (lookup_correct_iff coherent_renamed hknown "b" .filenode 5).1.2 hclean⟩

/-- The table still has the row `a` of the renamed file. -/
def renamedQuery (p : Nat) (name : String) (t : NodeType) : Option Nat :=
  if p = 1 ∧ name = "a" ∧ t = .filenode then some 2 else none

theorem querySpec_renamed : renamed.QuerySpec renamedQuery where
  found := by
    intro p name t h hq
    unfold renamedQuery at hq
    split at hq
    · rename_i hc
      obtain ⟨rfl, rfl, rfl⟩ := hc
      cases hq
      exact ⟨_, rfl, rfl, rfl, rfl⟩
    · cases hq
  missing := by
    rintro p name t hq h ⟨d, hd, hpar, hname, htype⟩
    have hmem : (h, d) ∈ [(1, ({ parenthandle := none, type := .rootnode, n := some "r" } : NodeImage)),
        (2, { parenthandle := some 1, type := .filenode, n := some "a" })] :=
      get?_eq_some.1 hd
    rcases mem_cons.1 hmem with he | hmem
    · cases he
      cases hpar
    cases mem_singleton.1 hmem
    cases hpar
    unfold renamedQuery at hq
    rw [if_pos ⟨rfl, hname.symm, htype.symm⟩] at hq
    cases hq

/-- **Looking up the old name of a renamed node** returns the node, under its new name, where the
    folder has more children than the threshold, and nothing where it has not. -/
theorem lookup_of_renamed : renamed.Coherent ∧ renamed.Known 1 ∧ renamed.QuerySpec renamedQuery ∧
    (renamed.childNodeByNameType renamedQuery 0 1 "a" .filenode).map (·.1) = some 2 ∧
      renamed.childNodeByNameType renamedQuery 1 1 "a" .filenode = none ∧
        ¬ renamed.Correct 1 "a" .filenode
          (renamed.childNodeByNameType renamedQuery 0 1 "a" .filenode) := by
  refine ⟨coherent_renamed, by decide, querySpec_renamed, by decide, by decide, fun hc => ?_⟩
  have hres : renamed.childNodeByNameType renamedQuery 0 1 "a" .filenode =
      some (2, { parenthandle := some 1, type := .filenode, n := some "b" }) := by decide
  obtain ⟨⟨n, hn, -, -, -, hname⟩, -⟩ := hc.1 _ _ hres
  cases hn
  exact absurd hname (by decide)

end MegaSdk.Nodes.NodeStore
