import Rucbase.Index.IxIndexHandle
import Mathlib.Data.List.Perm.Basic

/-!
# Pins of an index

Every function of the index is given the pages it holds pinned when it is called and those it
leaves pinned when it returns: `Uses I held x left`. Pins of others (`P`) are neither counted nor
touched: a page is only unpinned by who holds it. On the way `I` is kept, a property that no
header update, no fetch and unpin, no new page and no write to a pinned page can break.

The rules follow the statements of a function; the functions call each other with what they
hold, so each needs one lemma, and the recursive ones an induction on the rounds.
-/

namespace Rucbase

open Lib

namespace IxIndexHandle

variable {κ α β : Type}

/-- A property that holds on whatever a function does to the pages it holds. -/
structure Robust [Inhabited κ] (I : IxIndexHandle κ → Prop) : Prop where
  hdr : ∀ s h, I s → I { s with fileHdr := h }
  write : ∀ s no n, no ∈ s.store.pins → I s → I { s with store := s.store.setPage no n }
  fetch : ∀ s no t, s.store.fetchPage no = .ok (some t) → I s → I { s with store := t }
  create : ∀ s no t log, s.store.newPage .blank = some (no, t) → I s →
    I { s with store := t, created := log }
  unpin : ∀ s no log, I s → I { s with store := s.store.unpinPage no, unpinned := log }

def Uses (I : IxIndexHandle κ → Prop) (held : List Int) (x : IxM κ α) (left : α → List Int) :
    Prop :=
  ∀ (P : List Int) (s t : IxIndexHandle κ) (a : α), s.store.pins.Perm (held ++ P) → I s →
    x.run s = .ok a t → t.store.pins.Perm (left a ++ P) ∧ I t
      ∧ ∃ log, t.unpinned = log ++ s.unpinned ∧ ∀ e ∈ log, P.count e.1 < e.2.count e.1

variable {I : IxIndexHandle κ → Prop} {held held' : List Int} {x : IxM κ α} {f : α → IxM κ β}
  {left mid : α → List Int} {out : β → List Int} {no a b : Int}

namespace Uses

theorem bind (hx : Uses I held x mid) (hf : ∀ a, Uses I (mid a) (f a) out) :
    Uses I held (x >>= f) out := by
  intro P s t b hp hi hrun
  obtain ⟨a, u, h1, h2⟩ := bind_eq_ok.mp hrun
  obtain ⟨hpu, hiu, log, hlog, hown⟩ := hx P s u a hp hi h1
  obtain ⟨hpt, hit, log', hlog', hown'⟩ := hf a P u t b hpu hiu h2
  refine ⟨hpt, hit, log' ++ log, ?_, ?_⟩
  · rw [hlog', hlog, List.append_assoc]
  · intro e he
    exact (List.mem_append.mp he).elim (hown' e) (hown e)

/-- What is pinned, in another order. -/
theorem perm (hp : held.Perm held') (hx : Uses I held' x left) : Uses I held x left :=
  fun P s t a h => hx P s t a (h.trans (hp.append_right P))

theorem pure {a : α} (h : left a = held) : Uses I held (Pure.pure a : IxM κ α) left := by
  intro P s t b hp hi hrun
  rw [EStateM.run_pure, EStateM.Result.ok.injEq] at hrun
  obtain ⟨rfl, rfl⟩ := hrun
  exact ⟨h ▸ hp, hi, [], rfl, by simp⟩

theorem throw {e : RedBaseError} : Uses I held (MonadExcept.throw e : IxM κ α) left :=
  fun _ _ _ _ _ _ h => by simp at h

theorem get_bind {g : IxIndexHandle κ → IxM κ β} (h : ∀ s, Uses I held (g s) out) :
    Uses I held (get >>= g) out :=
  fun P s => h s P s

theorem ite {c : Prop} [Decidable c] {y : IxM κ α} (h : c → Uses I held x left)
    (h' : ¬ c → Uses I held y left) : Uses I held (if c then x else y) left := by
  by_cases hc : c
  · rw [if_pos hc]
    exact h hc
  · rw [if_neg hc]
    exact h' hc

theorem onlyIf {c : Prop} [Decidable c] {x : IxM κ PUnit} (h : Uses I held x (fun _ => held)) :
    Uses I held (Lib.onlyIf c x) (fun _ => held) := ite (fun _ => h) (fun _ => .pure rfl)

theorem forM {γ : Type} {g : γ → IxM κ PUnit} (h : ∀ i, Uses I held (g i) (fun _ => held)) :
    ∀ l : List γ, Uses I held (ForM.forM l g) (fun _ => held)
  | [] => .pure rfl
  | i :: l => by
      rw [List.forM_cons]
      exact (h i).bind fun _ => forM h l

/-- A statement that changes no pins. -/
theorem of_modify {g : IxIndexHandle κ → IxIndexHandle κ}
    (hpins : ∀ s, (g s).store.pins = s.store.pins ∧ (g s).unpinned = s.unpinned)
    (hkeep : ∀ s, (∀ p ∈ held, p ∈ s.store.pins) → I s → I (g s)) :
    Uses I held (modify g : IxM κ PUnit) (fun _ => held) := by
  intro P s t a hp hi hrun
  obtain rfl : t = g s := by
    have : EStateM.Result.ok ⟨⟩ (g s) = EStateM.Result.ok a t := hrun
    rw [EStateM.Result.ok.injEq] at this
    exact this.2.symm
  obtain ⟨h1, h2⟩ := hpins s
  refine ⟨h1.symm ▸ hp, hkeep s (fun p hh => ?_) hi, [], h2, by simp⟩
  exact hp.mem_iff.mpr (List.mem_append_left _ hh)

end Uses

theorem uses_deletePage : Uses I held
    (modify fun s : IxIndexHandle κ => { s with store := s.store.deletePage no }) (fun _ => held) :=
  .of_modify (fun _ => ⟨rfl, rfl⟩) (fun _ _ hi => hi)

variable [Inhabited κ]

theorem uses_findChild {parent child : Int} :
    Uses I held (findChild parent child : IxM κ Nat) (fun _ => held) := by
  refine .get_bind fun s => ?_
  cases (s.node parent).findChild child with
  | some idx => exact .pure rfl
  | none => exact .throw

section

variable (hI : Robust I)

include hI

/-! ## The small calls -/

theorem uses_modifyNode {g : IxNode κ → IxNode κ} (hno : no ∈ held) :
    Uses I held (modifyNode no g) (fun _ => held) :=
  .of_modify (fun _ => ⟨rfl, rfl⟩) (fun s hs hi => hI.write s no _ (hs no hno) hi)

theorem uses_modifyHdr {g : IxFileHdr → IxFileHdr} : Uses I held (modifyHdr g) (fun _ => held) :=
  .of_modify (fun _ => ⟨rfl, rfl⟩) (fun s _ hi => hI.hdr s _ hi)

theorem uses_unpinPage : Uses I (no :: held) (unpinPage no) (fun _ => held) := by
  intro P s t _ hp hi hrun
  have hcount : s.store.pins.count no = held.count no + P.count no + 1 := by
    rw [hp.count_eq, List.cons_append, List.count_cons_self, List.count_append]
  obtain rfl : t = { s with
      store := s.store.unpinPage no, unpinned := (no, s.store.pins) :: s.unpinned } := by
    have : (unpinPage no).run s = EStateM.Result.ok PUnit.unit _ := rfl
    rw [this, EStateM.Result.ok.injEq] at hrun
    exact hrun.2.symm
  refine ⟨?_, hI.unpin s no _ hi, [(no, s.store.pins)], rfl, ?_⟩
  · have := hp.erase no
    rwa [List.cons_append, List.erase_cons_head] at this
  · intro e he
    rw [List.mem_singleton.mp he]
    show P.count no < s.store.pins.count no
    omega

theorem uses_unpinPage_third : Uses I (a :: b :: no :: held) (unpinPage no) (fun _ => a :: b :: held) :=
  .perm ((List.Perm.swap no b held).cons a |>.trans (.swap no a (b :: held))) (uses_unpinPage hI)

theorem uses_assertUnpinPage : Uses I (no :: held) (assertUnpinPage no) (fun _ => held) :=
  .get_bind fun _ => .ite (fun _ => uses_unpinPage hI) (fun _ => .throw)

theorem uses_fetchNode : Uses I held (fetchNode no) (fun a => a :: held) := by
  intro P s t a hp hi hrun
  unfold fetchNode at hrun
  rw [run_get_bind] at hrun
  cases hfetch : s.store.fetchPage no with
  | error e =>
      rw [hfetch] at hrun
      exact absurd hrun (by simp)
  | ok r =>
      cases r with
      | none =>
          rw [hfetch] at hrun
          exact absurd hrun (by simp)
      | some u =>
          rw [hfetch] at hrun
          have : EStateM.Result.ok no { s with store := u } = EStateM.Result.ok a t := hrun
          rw [EStateM.Result.ok.injEq] at this
          obtain ⟨rfl, rfl⟩ := this
          refine ⟨?_, hI.fetch s no u hfetch hi, [], rfl, by simp⟩
          rw [(PageStore.of_fetchPage hfetch).2]
          exact hp.cons no

theorem uses_createNode : Uses I held (createNode : IxM κ Int) (fun a => a :: held) := by
  unfold createNode
  refine (uses_modifyHdr hI).bind fun _ => ?_
  intro P s t a hp hi hrun
  rw [run_get_bind] at hrun
  cases hnew : s.store.newPage .blank with
  | none =>
      rw [hnew] at hrun
      exact absurd hrun (by simp)
  | some r =>
      obtain ⟨no, u⟩ := r
      rw [hnew] at hrun
      have : EStateM.Result.ok no _ = EStateM.Result.ok a t := hrun
      rw [EStateM.Result.ok.injEq] at this
      obtain ⟨rfl, rfl⟩ := this
      refine ⟨?_, hI.create s no u _ hnew hi, [], rfl, by simp⟩
      obtain ⟨rfl, rfl⟩ := PageStore.of_newPage hnew
      exact hp.cons _

/-! ## Parents and leaf links -/

theorem uses_maintainChild {node : Int} {i : Nat} :
    Uses I held (maintainChild node i : IxM κ Unit) (fun _ => held) := by
  refine .get_bind fun s => .onlyIf ((uses_fetchNode hI).bind fun child => ?_)
  exact (uses_modifyNode hI List.mem_cons_self).bind fun _ => uses_unpinPage hI

theorem uses_maintainParent [LinearOrder κ] (fuel : Nat) (curr : Int) :
    Uses I held (maintainParent fuel curr : IxM κ Unit) (fun _ => held) := by
  induction fuel generalizing curr with
  | zero => exact .throw
  | succ fuel ih =>
      refine .get_bind fun s => .onlyIf ((uses_fetchNode hI).bind fun parent => ?_)
      refine (uses_findChild).bind fun rank => .ite (fun _ => uses_assertUnpinPage hI) fun _ => ?_
      refine (uses_modifyNode hI List.mem_cons_self).bind fun _ => ?_
      exact (uses_assertUnpinPage hI).bind fun _ => ih parent

theorem uses_eraseLeaf {leaf : Int} : Uses I held (eraseLeaf leaf : IxM κ Unit) (fun _ => held) := by
  refine .get_bind fun s => .ite (fun _ => .throw) fun _ => ?_
  refine (uses_fetchNode hI).bind fun prev => ?_
  refine (uses_modifyNode hI List.mem_cons_self).bind fun _ => ?_
  refine (uses_unpinPage hI).bind fun _ => (uses_fetchNode hI).bind fun next => ?_
  exact (uses_modifyNode hI List.mem_cons_self).bind fun _ => uses_unpinPage hI

/-! ## Search -/

theorem uses_descend [LinearOrder κ] (key : κ) (fuel : Nat) (node : Int) :
    Uses I (node :: held) (descend key fuel node) (fun a => a :: held) := by
  induction fuel generalizing node with
  | zero => exact .throw
  | succ fuel ih =>
      refine .get_bind fun s => .ite (fun _ => .pure rfl) fun _ => ?_
      exact (uses_unpinPage hI).bind fun _ => (uses_fetchNode hI).bind fun child => ih child

theorem uses_findLeafPage [LinearOrder κ] (fuel : Nat) (key : κ) :
    Uses I held (findLeafPage fuel key) (fun a => a :: held) :=
  .get_bind fun _ => (uses_fetchNode hI).bind fun node => uses_descend hI key fuel node

theorem uses_getValue [LinearOrder κ] (fuel : Nat) (key : κ) : Uses I held (getValue fuel key)
    (fun _ => held) := by
  refine (uses_findLeafPage hI fuel key).bind fun leaf => .get_bind fun s => ?_
  exact (uses_unpinPage hI).bind fun _ => .pure rfl

/-! ## Insertion -/

theorem uses_linkLeaf {node newNode next : Int} (hnode : node ∈ held) (hnew : newNode ∈ held) :
    Uses I held (linkLeaf node newNode next : IxM κ Unit) (fun _ => held) := by
  refine (uses_modifyNode hI hnew).bind fun _ => ?_
  refine Uses.bind (.onlyIf ((uses_fetchNode hI).bind fun nxt => ?_))
    fun _ => uses_modifyNode hI hnode
  exact (uses_modifyNode hI List.mem_cons_self).bind fun _ => uses_unpinPage hI

theorem uses_split {node : Int} (hnode : node ∈ held) :
    Uses I held (split node : IxM κ Int) (fun a => a :: held) := by
  refine .get_bind fun s => (uses_createNode hI).bind fun newNode => ?_
  have hnew : newNode ∈ newNode :: held := List.mem_cons_self
  have hold : node ∈ newNode :: held := List.mem_cons_of_mem _ hnode
  refine (uses_modifyNode hI hnew).bind fun _ => (uses_modifyNode hI hnew).bind fun _ => ?_
  refine (uses_modifyNode hI hold).bind fun _ => ?_
  refine .ite (fun _ => ?_) (fun _ => ?_)
  · exact (uses_linkLeaf hI hold hnew).bind fun _ => .pure rfl
  · exact (Uses.forM (fun i => uses_maintainChild hI) _).bind fun _ => .pure rfl

theorem uses_growRoot {oldNode newNode : Int} {key : κ} (hold : oldNode ∈ held)
    (hnew : newNode ∈ held) : Uses I held (growRoot oldNode key newNode) (fun _ => held) := by
  refine .get_bind fun s => (uses_createNode hI).bind fun root => ?_
  have hroot : root ∈ root :: held := List.mem_cons_self
  refine (uses_modifyNode hI hroot).bind fun _ => (uses_modifyNode hI hroot).bind fun _ => ?_
  refine (uses_modifyNode hI hroot).bind fun _ => ?_
  refine (uses_modifyNode hI (List.mem_cons_of_mem _ hold)).bind fun _ => ?_
  refine (uses_modifyNode hI (List.mem_cons_of_mem _ hnew)).bind fun _ => ?_
  exact (uses_modifyHdr hI).bind fun _ => uses_unpinPage hI

theorem uses_insertIntoParent (fuel : Nat) {oldNode newNode : Int} {key : κ}
    (hold : oldNode ∈ held) (hnew : newNode ∈ held) :
    Uses I held (insertIntoParent fuel oldNode key newNode) (fun _ => held) := by
  induction fuel generalizing oldNode newNode key held with
  | zero => exact .throw
  | succ fuel ih =>
      refine .get_bind fun s => .ite (fun _ => uses_growRoot hI hold hnew) fun _ => ?_
      refine (uses_fetchNode hI).bind fun parent => (uses_findChild).bind fun idx => ?_
      have hparent : parent ∈ parent :: held := List.mem_cons_self
      refine (uses_modifyNode hI hparent).bind fun _ => ?_
      refine (uses_modifyNode hI (List.mem_cons_of_mem _ hnew)).bind fun _ => .get_bind fun t => ?_
      refine (Uses.onlyIf ?_).bind fun _ => uses_unpinPage hI
      -- the parent is full
      refine (uses_split hI hparent).bind fun newParent => .get_bind fun u => ?_
      refine (ih (List.mem_cons_of_mem _ hparent) List.mem_cons_self).bind fun _ => ?_
      exact uses_unpinPage hI

theorem uses_insertIntoLeaf [LinearOrder κ] (fuel : Nat) {leaf : Int} {key : κ} {value : Rid} :
    Uses I (leaf :: held) (insertIntoLeaf fuel leaf key value) (fun _ => held) := by
  have hleaf : leaf ∈ leaf :: held := List.mem_cons_self
  refine (uses_modifyNode hI hleaf).bind fun _ => .get_bind fun s => ?_
  refine (Uses.onlyIf ?_).bind fun _ => (uses_unpinPage hI).bind fun _ => .pure rfl
  refine (uses_split hI hleaf).bind fun newLeaf => .get_bind fun t => ?_
  refine (uses_insertIntoParent hI fuel (List.mem_cons_of_mem _ hleaf) List.mem_cons_self).bind
    fun _ => ?_
  exact (Uses.onlyIf (uses_modifyHdr hI)).bind fun _ => uses_unpinPage hI

theorem uses_insertEntry [LinearOrder κ] (fuel : Nat) (key : κ) (value : Rid) :
    Uses I held (insertEntry fuel key value) (fun _ => held) :=
  (uses_findLeafPage hI fuel key).bind fun _ => uses_insertIntoLeaf hI fuel

/-! ## Deletion -/

theorem uses_adjustRoot {oldRoot : Int} (hold : oldRoot ∈ held) :
    Uses I held (adjustRoot oldRoot : IxM κ Bool) (fun _ => held) := by
  refine .get_bind fun s => .ite (fun _ => ?_) fun _ => .ite (fun _ => ?_) fun _ => .pure rfl
  · refine (uses_modifyNode hI hold).bind fun _ => (uses_fetchNode hI).bind fun root => ?_
    refine (uses_modifyNode hI List.mem_cons_self).bind fun _ => (uses_unpinPage hI).bind fun _ => ?_
    exact (uses_modifyHdr hI).bind fun _ => (uses_modifyHdr hI).bind fun _ => .pure rfl
  · exact (uses_modifyHdr hI).bind fun _ => (uses_modifyHdr hI).bind fun _ => .pure rfl

theorem uses_redistribute [LinearOrder κ] (fuel : Nat) {neighbor node : Int} {index : Nat}
    (hnb : neighbor ∈ held)
    (hnode : node ∈ held) :
    Uses I held (redistribute fuel neighbor node index : IxM κ Unit) (fun _ => held) := by
  refine .get_bind fun s => .ite (fun _ => ?_) fun _ => ?_
  · refine (uses_modifyNode hI hnode).bind fun _ => (uses_modifyNode hI hnb).bind fun _ => ?_
    exact (uses_maintainParent hI fuel _).bind fun _ => uses_maintainChild hI
  · refine (uses_modifyNode hI hnode).bind fun _ => (uses_modifyNode hI hnb).bind fun _ => ?_
    exact (uses_maintainParent hI fuel _).bind fun _ => uses_maintainChild hI

/-- `Coalesce` releases both nodes and hands the parent on. -/
theorem uses_coalesce {again : Int → IxM κ Bool} {neighbor node parent : Int} {index : Nat}
    (hagain : Uses I (parent :: held) (again parent) (fun _ => held)) :
    Uses I (neighbor :: parent :: node :: held) (coalesce again neighbor node parent index)
      (fun _ => held) := by
  unfold coalesce
  extract_lets left right
  have hperm : (neighbor :: parent :: node :: held).Perm (right :: left :: parent :: held) := by
    have hswap := (List.Perm.swap node parent held).cons neighbor
    by_cases h0 : index = 0
    · simp only [left, right, if_pos h0]
      exact hswap
    · simp only [left, right, if_neg h0]
      exact hswap.trans (.swap node neighbor (parent :: held))
  refine .perm hperm (.get_bind fun s => (uses_modifyNode hI (by simp)).bind fun _ => ?_)
  refine (Uses.onlyIf (.forM (fun i => uses_maintainChild hI) _)).bind fun _ => ?_
  refine (Uses.onlyIf ((Uses.onlyIf (uses_modifyHdr hI)).bind fun _ => uses_eraseLeaf hI)).bind
    fun _ => ?_
  refine (uses_findChild).bind fun idx => (uses_modifyNode hI (by simp)).bind fun _ => ?_
  refine (uses_modifyHdr hI).bind fun _ => (uses_unpinPage hI).bind fun _ => ?_
  exact uses_deletePage.bind fun _ => (uses_unpinPage hI).bind fun _ => hagain

theorem uses_coalesceOrRedistribute [LinearOrder κ] (fuel : Nat) {node : Int} :
    Uses I (node :: held) (coalesceOrRedistribute fuel node : IxM κ Bool) (fun _ => held) := by
  induction fuel generalizing node held with
  | zero => exact .throw
  | succ fuel ih =>
      refine .get_bind fun s => .ite (fun _ => ?_) fun _ => .ite (fun _ => ?_) fun _ => ?_
      · exact (uses_unpinPage hI).bind fun _ => .pure rfl
      · refine (uses_adjustRoot hI List.mem_cons_self).bind fun _ => ?_
        exact (uses_unpinPage hI).bind fun _ => .pure rfl
      · refine (uses_fetchNode hI).bind fun parent => (uses_findChild).bind fun idx => ?_
        refine (uses_fetchNode hI).bind fun neighbor => .ite (fun _ => ?_) fun _ => ?_
        · refine (uses_redistribute hI fuel (by simp) (by simp)).bind fun _ => ?_
          refine (uses_unpinPage_third hI).bind fun _ => (uses_unpinPage hI).bind fun _ => ?_
          exact (uses_unpinPage hI).bind fun _ => .pure rfl
        · exact uses_coalesce hI ih

theorem uses_removeFromLeaf [LinearOrder κ] (fuel : Nat) {leaf : Int} {key : κ} :
    Uses I (leaf :: held) (removeFromLeaf fuel leaf key) (fun _ => held) := by
  refine .get_bind fun s => (uses_modifyNode hI List.mem_cons_self).bind fun _ => .get_bind fun t => ?_
  refine .ite (fun _ => (uses_unpinPage hI).bind fun _ => .pure rfl) fun _ => ?_
  exact (uses_coalesceOrRedistribute hI fuel).bind fun _ => .pure rfl

theorem uses_deleteEntry [LinearOrder κ] (fuel : Nat) (key : κ) :
    Uses I held (deleteEntry fuel key) (fun _ => held) :=
  (uses_findLeafPage hI fuel key).bind fun _ => uses_removeFromLeaf hI fuel

/-! ## Positions -/

theorem uses_leafEnd : Uses I held (leafEnd : IxM κ Iid) (fun _ => held) := by
  refine .get_bind fun s => (uses_fetchNode hI).bind fun node => .get_bind fun t => ?_
  exact (uses_unpinPage hI).bind fun _ => .pure rfl

theorem uses_lowerBound [LinearOrder κ] (fuel : Nat) (key : κ) :
    Uses I held (lowerBound fuel key) (fun _ => held) := by
  refine (uses_findLeafPage hI fuel key).bind fun node => .get_bind fun s => ?_
  exact (uses_unpinPage hI).bind fun _ => .pure rfl

theorem uses_upperBound [LinearOrder κ] (fuel : Nat) (key : κ) :
    Uses I held (upperBound fuel key) (fun _ => held) := by
  refine (uses_findLeafPage hI fuel key).bind fun node => .get_bind fun s => ?_
  have hrest : ∀ iid, Uses I (node :: held) (do unpinPage node; return iid : IxM κ Iid)
      (fun _ => held) := fun _ => (uses_unpinPage hI).bind fun _ => .pure rfl
  exact .ite (fun _ => (uses_leafEnd hI).bind hrest) fun _ => hrest _

end

/-! ## The point operations -/

theorem robust_true : Robust (κ := κ) (fun _ => True) :=
  ⟨fun _ _ _ => trivial, fun _ _ _ _ _ => trivial, fun _ _ _ _ _ => trivial,
    fun _ _ _ _ _ _ => trivial, fun _ _ _ _ => trivial⟩

end IxIndexHandle

/-- The calls on one key, and `leaf_end`. -/
inductive IxCall (κ : Type) where
  | getValue (key : κ)
  | insertEntry (key : κ) (value : Rid)
  | deleteEntry (key : κ)
  | lowerBound (key : κ)
  | upperBound (key : κ)
  | leafEnd

namespace IxCall

open IxIndexHandle

variable {κ : Type} [LinearOrder κ] [Inhabited κ]

/-- The call, its answer dropped. -/
def exec (fuel : Nat) : IxCall κ → IxM κ Unit
  | getValue k => do let _ ← IxIndexHandle.getValue fuel k
  | insertEntry k v => do let _ ← IxIndexHandle.insertEntry fuel k v
  | deleteEntry k => do let _ ← IxIndexHandle.deleteEntry fuel k
  | lowerBound k => do let _ ← IxIndexHandle.lowerBound fuel k
  | upperBound k => do let _ ← IxIndexHandle.upperBound fuel k
  | leafEnd => do let _ ← IxIndexHandle.leafEnd (κ := κ)

theorem uses_exec {I : IxIndexHandle κ → Prop} (hI : Robust I) {held : List Int} (fuel : Nat)
    (call : IxCall κ) : Uses I held (call.exec fuel) (fun _ => held) := by
  cases call with
  | getValue k => exact (uses_getValue hI fuel k).bind fun _ => .pure rfl
  | insertEntry k v => exact (uses_insertEntry hI fuel k v).bind fun _ => .pure rfl
  | deleteEntry k => exact (uses_deleteEntry hI fuel k).bind fun _ => .pure rfl
  | lowerBound k => exact (uses_lowerBound hI fuel k).bind fun _ => .pure rfl
  | upperBound k => exact (uses_upperBound hI fuel k).bind fun _ => .pure rfl
  | leafEnd => exact (uses_leafEnd hI).bind fun _ => .pure rfl

/-- **The point operations leave every pin count as it was**, and unpin a page only when it has
more pins than it had before the call. -/
theorem pin_neutral (call : IxCall κ) {fuel : Nat} {s t : IxIndexHandle κ} {a : Unit}
    (hrun : (call.exec fuel).run s = .ok a t) :
    (∀ page, t.store.pins.count page = s.store.pins.count page)
      ∧ ∃ log, t.unpinned = log ++ s.unpinned ∧ ∀ e ∈ log, s.store.pins.count e.1 < e.2.count e.1 := by
  obtain ⟨hpins, _, hlog⟩ := uses_exec robust_true fuel call s.store.pins s t a
    (.refl ([] ++ s.store.pins)) trivial hrun
  exact ⟨fun page => hpins.count_eq page, hlog⟩

/-- An index of order 3 whose root is a leaf with the keys `1 2 3`, the root pinned by someone
else. -/
def fullLeaf : IxIndexHandle Nat where
  fileHdr := initialHdr 3 ⟨ixNoPage, 0, 0, 0, 4, 0, 0, 0, 0⟩
  store :=
    ⟨Function.update (initialPages .blank .blank) 2
      (some ⟨ixNoPage, 3, true, 1, 1, fun i => i + 1, fun i => ⟨1, i⟩⟩), [2], 3, none⟩
  created := []
  unpinned := []

theorem pin_neutral_fullLeaf : ∃ a t, ((insertEntry 4 ⟨1, 4⟩).exec 2).run fullLeaf = .ok a t
    ∧ t.store.pins.count 2 = 1 ∧ t.unpinned.length = 4 := by
  have hok : (match ((insertEntry 4 ⟨1, 4⟩).exec 2).run fullLeaf with
    | .ok _ t => t.unpinned.length
    | .error _ _ => 0) = 4 := by decide +kernel
  cases hrun : ((insertEntry 4 ⟨1, 4⟩).exec 2).run fullLeaf with
  | error e t =>
      rw [hrun] at hok
      exact absurd hok (by simp)
  | ok a t =>
      rw [hrun] at hok
      exact ⟨a, t, rfl, (pin_neutral (insertEntry 4 ⟨1, 4⟩) hrun).1 2, hok⟩

end IxCall

end Rucbase
