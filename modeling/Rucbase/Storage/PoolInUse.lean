import Rucbase.Storage.SharedPoolProof
import Rucbase.Storage.PoolFetchable

/-!
# A pool in use

What a pool keeps while any number of files are created, opened, worked on and closed over it,
beside the contents of their pages: frames in the free list are idle, every page in it has a number,
and the disk works. With `Good` this is what a client needs for its own calls to return, whatever
the other files left behind: dirty pages of open files can be written, and the pages of closed ones
are clean.
-/

namespace Rucbase

open Lib BufferPoolManager

variable {s s' t : BufferPoolManager} {d d' : DiskManager} {m : FileMap} {w w' : World}

/-- The same transfers fail. -/
def DiskManager.SameFaults (d d' : DiskManager) : Prop :=
  d'.writeFails = d.writeFails ∧ d'.readFails = d.readFails

theorem DiskManager.SameFaults.trans {d'' : DiskManager} (h : d.SameFaults d')
    (h' : d'.SameFaults d'') : d.SameFaults d'' := ⟨h'.1.trans h.1, h'.2.trans h.2⟩

theorem DiskManager.SameFaults.write {fd no : Int} {buf : Nat → UInt8} {n : Nat}
    (hw : d.writePage fd no buf n = some d') : d.SameFaults d' := by
  obtain ⟨_, _, _, _, _, rfl⟩ := DiskManager.writePage_some hw
  exact ⟨rfl, rfl⟩

namespace BufferPoolManager

/-- **A pool in use.** -/
structure InUse (s : BufferPoolManager) : Prop where
  idle : FreeIdle s
  numbers : ∀ p f, s.pageTable p = some f → 0 ≤ p.pageNo
  works : ∀ fd no, s.diskManager.writeFails fd no = false ∧ s.diskManager.readFails fd no = false

theorem SameCache.withDisk (s : BufferPoolManager) (d : DiskManager) :
    SameCache s { s with diskManager := d } :=
  ⟨rfl, rfl, rfl, rfl, fun _ => rfl, fun _ => rfl, fun _ => rfl⟩

theorem SameCache.trans (h : SameCache s t) (h' : SameCache t s') : SameCache s s' :=
  ⟨h'.poolSize.trans h.poolSize, h'.pageTable.trans h.pageTable, h'.freeList.trans h.freeList,
    h'.replacer.trans h.replacer, fun f => (h'.id f).trans (h.id f),
    fun f => (h'.data f).trans (h.data f), fun f => (h'.pinCount f).trans (h.pinCount f)⟩

namespace InUse

theorem init (poolSize : Nat) (files : String → Option OsFile) (fd : Int) :
    InUse (.new poolSize (.new files) fd) where
  idle := fun _ _ => rfl
  numbers := fun _ _ hp => absurd hp (by simp [BufferPoolManager.new])
  works := fun _ _ => ⟨rfl, rfl⟩

/-- The frames do not say what is on disk. -/
theorem withDisk (h : InUse s) (hd : s.diskManager.SameFaults d) :
    InUse { s with diskManager := d } := by
  refine ⟨h.idle, h.numbers, fun fd no => ?_⟩
  show d.writeFails fd no = false ∧ d.readFails fd no = false
  rw [hd.1, hd.2]
  exact h.works fd no

theorem sameCache (h : InUse s) (hs : SameCache s s') (hd : s.diskManager.SameFaults s'.diskManager) :
    InUse s' := by
  refine ⟨fun f hf => ?_, fun p f hp => ?_, fun fd no => ?_⟩
  · rw [hs.freeList] at hf
    rw [hs.pinCount]
    exact h.idle f hf
  · rw [hs.pageTable] at hp
    exact h.numbers p f hp
  · rw [hd.1, hd.2]
    exact h.works fd no

/-- **The step lemma** for the calls. -/
theorem call {c : Call} {r : Ret} (h : InUse s) (hinv : PoolInv s) (hs : Step s (c, r) s') :
    InUse s' := by
  have hfaults : s.diskManager.SameFaults s'.diskManager :=
    hs.effect.disk_invariant (I := fun d => s.diskManager.SameFaults d)
      (fun _ _ _ _ _ hd hw => hd.trans (.write hw)) (fun _ _ hd => hd) ⟨rfl, rfl⟩
  refine ⟨h.idle.effect hinv hs.effect, fun p f hp => ?_, fun fd no => ?_⟩
  · rcases hinv.cached_from hs hp with ⟨hp, _⟩ | ⟨_, hpos, _⟩ | ⟨_, _, rfl, _⟩
    · exact h.numbers p f hp
    · exact hpos.1
    · exact Int.natCast_nonneg _
  · rw [hfaults.1, hfaults.2]
    exact h.works fd no

theorem overwrite (h : InUse s) (f : Nat) (x : PageData) : InUse (s.overwrite f x) := by
  refine ⟨fun g hg => ?_, h.numbers, h.works⟩
  show (Function.update s.pages f _ g).pinCount = 0
  by_cases hgf : g = f
  · rw [hgf, Function.update_self]
    exact h.idle f (hgf ▸ hg)
  · rw [Function.update_of_ne hgf]
    exact h.idle g hg

end InUse

/-! ## Manager calls -/

/-- An action that leaves the frames as they are, but for what it writes out. -/
structure Quiet {α : Type} (x : PoolM α) : Prop where
  keeps : ∀ s a s', x.run s = .ok a s' → SameCache s s' ∧ s.diskManager.SameFaults s'.diskManager

namespace Quiet

variable {α β : Type}

theorem pure (a : α) : Quiet (pure a : PoolM α) := by
  refine ⟨fun s a' s' h => ?_⟩
  rw [EStateM.run_pure, EStateM.Result.ok.injEq] at h
  exact h.2 ▸ ⟨.refl s, rfl, rfl⟩

theorem throw (e : RedBaseError) : Quiet (throw e : PoolM α) :=
  ⟨fun _ _ _ h => absurd h (by simp)⟩

theorem bind {x : PoolM α} {k : α → PoolM β} (hx : Quiet x) (hk : ∀ a, Quiet (k a)) :
    Quiet (x >>= k) := by
  refine ⟨fun s b s' h => ?_⟩
  obtain ⟨a, t, hxa, hkb⟩ := bind_eq_ok.mp h
  obtain ⟨hcache, hfaults⟩ := hx.keeps s a t hxa
  obtain ⟨hcache', hfaults'⟩ := (hk a).keeps t b s' hkb
  exact ⟨hcache.trans hcache', hfaults.trans hfaults'⟩

theorem disk {g : DiskManager → Except RedBaseError DiskManager}
    (hg : ∀ d d', g d = .ok d' → d.SameFaults d') : Quiet (disk g) := by
  refine ⟨fun s _ s' h => ?_⟩
  obtain ⟨d, hd, rfl⟩ := disk_ok h
  exact ⟨.withDisk s d, hg _ d hd⟩

theorem createFile (path : String) : Quiet (Rucbase.disk (·.createFile path)) :=
  disk fun _ _ h => (DiskManager.createFile_ok h).2 ▸ ⟨rfl, rfl⟩

theorem openFile (path : String) (fd : Int) : Quiet (Rucbase.disk (·.openFile path fd)) :=
  disk fun _ _ h => (DiskManager.openFile_ok h).2.2 ▸ ⟨rfl, rfl⟩

theorem closeFile (fd : Int) : Quiet (Rucbase.disk (·.closeFile fd)) := by
  refine disk fun d d' h => ?_
  obtain ⟨_, _, rfl⟩ := DiskManager.closeFile_ok h
  exact ⟨rfl, rfl⟩

theorem destroyFile (path : String) : Quiet (Rucbase.disk (·.destroyFile path)) :=
  disk fun _ _ h => (DiskManager.destroyFile_ok h).2 ▸ ⟨rfl, rfl⟩

theorem writeDisk (fd no : Int) (buf : Nat → UInt8) (n : Nat) : Quiet (writeDisk fd no buf n) := by
  refine ⟨fun s _ s' h => ?_⟩
  obtain ⟨d, hd, rfl⟩ := writeDisk_ok h
  exact ⟨.withDisk s d, .write hd⟩

theorem readDisk (fd no : Int) (n : Nat) : Quiet (readDisk fd no n) := by
  refine ⟨fun s buf s' h => ?_⟩
  unfold Rucbase.readDisk at h
  rw [run_get_bind] at h
  dsimp only at h
  split at h
  · rw [EStateM.run_pure, EStateM.Result.ok.injEq] at h
    exact h.2 ▸ ⟨.refl s, rfl, rfl⟩
  · exact absurd h (by simp)

theorem setFd2pageno (fd : Int) (n : DiskManager → Nat) : Quiet (modify fun s =>
    { s with diskManager := s.diskManager.setFd2pageno fd (n s.diskManager) } : PoolM PUnit) := by
  refine ⟨fun s _ s' h => ?_⟩
  obtain ⟨_, rfl⟩ := EStateM.Result.ok.inj h
  exact ⟨.withDisk s _, rfl, rfl⟩

theorem flushAllPages (fd : Int) : Quiet (flushAllPages fd) := by
  refine ⟨fun s _ s' h => ⟨flushAllPages_sameCache h, ?_⟩⟩
  exact flushAllPages_invariant (I := fun t => s.diskManager.SameFaults t.diskManager)
    (fun _ _ _ ht _ _ _ hw => ht.trans (.write hw)) ⟨rfl, rfl⟩ h

theorem openHandle (path : String) (fd : Int) (n : Nat) : Quiet (openHandle path fd n) :=
  (openFile path fd).bind fun _ => readDisk fd fileHdrPage n

theorem closeHandle (fd : Int) (hdr : Nat → UInt8) (n : Nat) : Quiet (closeHandle fd hdr n) :=
  (writeDisk ..).bind fun _ => (flushAllPages fd).bind fun _ => closeFile fd

/-- **The manager calls leave the frames alone.** -/
theorem manager (o : FileOp) : Quiet o.run := by
  cases o with
  | rmCreate filename recordSize fd =>
      show Quiet (RmManager.createFile filename recordSize fd)
      unfold RmManager.createFile
      split
      · exact throw _
      · exact (createFile _).bind fun _ => (openFile ..).bind fun _ => (writeDisk ..).bind fun _ =>
          closeFile fd
  | ixCreate filename indexNo colType colLen pageBuf fd =>
      show Quiet (IxManager.createIndex filename indexNo colType colLen pageBuf fd)
      unfold IxManager.createIndex
      refine (createFile _).bind fun _ => (openFile ..).bind fun _ => ?_
      split_ifs
      · exact throw _
      · exact throw _
      · exact throw _
      · exact (writeDisk ..).bind fun _ => (writeDisk ..).bind fun _ => (writeDisk ..).bind fun _ =>
          (setFd2pageno fd fun _ => ixInitNumPages - 1).bind fun _ => closeFile fd
  | rmOpen filename fd =>
      exact ((openHandle filename fd _).bind fun buf =>
        (setFd2pageno fd fun _ => (RmFileHdr.ofBuf buf).numPages.toNat).bind fun _ => pure _).bind
          fun _ => pure _
  | ixOpen filename indexNo fd =>
      exact ((openHandle _ fd _).bind fun _ =>
        (setFd2pageno fd fun d => d.fd2pageno fd + 1).bind fun _ => pure _).bind fun _ => pure _
  | rmClose fd hdr => exact closeHandle ..
  | ixClose fd hdr => exact closeHandle ..
  | rmDestroy filename => exact destroyFile filename
  | ixDestroy filename indexNo => exact destroyFile _
  | page c op => exact pure _

end Quiet

end BufferPoolManager

/-! ## Runs -/

/-- **The step lemma.** -/
theorem inUse_step {o : FileOp} {r : Ret} (hg : Good m w) (h : InUse w.pool)
    (hs : FileStep w (o, r) w') : InUse w'.pool := by
  rcases FileOp.step_some hs with ⟨hen, ⟨c, op, rfl, he⟩ | ⟨_, s, he, _, rfl⟩⟩
  · cases op with
    | call k =>
        simp only [World.exec] at he
        split at he
        · split at he
          · rename_i r' s hrun
            obtain ⟨_, rfl⟩ := Prod.mk.inj (Option.some.inj he)
            rw [World.after_pool]
            exact h.call hg.faithful.inv (hg.step_call hen hrun)
          · exact absurd he (by simp)
        · exact absurd he (by simp)
    | write p f x =>
        simp only [World.exec] at he
        split at he
        · obtain ⟨_, rfl⟩ := Prod.mk.inj (Option.some.inj he)
          exact h.overwrite f x
        · exact absurd he (by simp)
  · obtain ⟨hcache, hfaults⟩ := (Quiet.manager o).keeps _ _ _ he
    exact h.sameCache hcache hfaults

/-- **The run lemma.** -/
theorem inUse_of_run {poolSize : Nat} {files : String → Option OsFile} {fd : Int}
    {h : List (FileOp × Ret)} (hrun : Run CleanStep (.new (.new poolSize (.new files) fd)) h w) :
    InUse w.pool := by
  have key : Good (filesAfter files h) w ∧ InUse w.pool := by
    refine hrun.invariant_history (I := fun w h => Good (filesAfter files h) w ∧ InUse w.pool)
      ⟨Good.init poolSize files fd, InUse.init poolSize files fd⟩ ?_
    rintro w h ⟨o, r⟩ w' ⟨hg, hu⟩ hs
    exact ⟨hg.step hs, inUse_step hg hu hs.2⟩
  exact key.2

/-! ## What a client of one file can rely on -/

/-- **What is in the pool can be written out**: the pages of open files are within their counters,
and those of closed ones are clean. -/
theorem Good.allocated (hg : Good m w) (h : InUse w.pool) :
    Allocated (fun fd => (w.pool.diskManager.openFds fd).isSome = true) w.pool where
  inv := hg.faithful.inv
  idle := h.idle
  works := by
    refine ⟨fun fd hl => ?_, fun fd no _ => (h.works fd no).1, fun fd no _ => (h.works fd no).2,
      hg.faithful.inj⟩
    obtain ⟨path, hopen⟩ := Option.isSome_iff_exists.mp hl
    show ((w.pool.diskManager.openFds fd).bind w.pool.diskManager.files).isSome
    rw [hopen]
    exact hg.tables.present fd path hopen
  cached := fun p f hp hl => ⟨h.numbers p f hp, hg.counted.cached p f hl hp⟩
  orphan := fun p f hp hl => hg.faithful.coherent.orphan p f hl hp
  stored := by
    rintro p _ ⟨hno, file, hfile, hsize⟩
    have hle := hsize.trans (hg.counted.sized p.fd file hfile)
    have hlt := Nat.le_of_mul_le_mul_right hle pageSize_pos
    omega

end Rucbase
