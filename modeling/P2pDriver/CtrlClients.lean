import P2pDriver.CtrlLedger
import P2pDriver.Library.Decimal
import Mathlib.Data.List.Pairwise

/-!
# Programs that use the control interface

A program may open the control interface more than once, also through other paths, and
use and close the structures in any order. Every structure has a socket file of its own:
the file is named after the counter of `wpa_ctrl_open2`, which is an `int` and does not
come back to a number within `INT_MAX` openings.

Results:
1. `clientPath_injective`: two openings do not try the same file.
2. `inventory_open2`, `inventory_close`: what one call does to the structures that are open.
3. `client_conserves`: what is there after a run is what is open.
-/

namespace P2pDriver

open Resumable Prog

/-! ## 1. The socket files -/

/-- The counter is the last number of the name, and no name is tried by two openings. -/
theorem clientPath_injective {cliPath cliPath' : Option Bytes} {pid pid' : Int} {n m : Nat}
    (h : clientPath cliPath pid n = clientPath cliPath' pid' m) : n = m := by
  have hdigits : ∀ n : Nat, bytes (toString (n : Int)) = Decimal.digits n := fun n => by
    rw [show toString (n : Int) = Nat.repr n from rfl, bytes, Decimal.digits, Nat.toList_repr]
  have hdash : bytes "-" = [45] := by decide
  simp only [clientPath, hdigits, hdash, List.append_assoc, List.singleton_append] at h
  simp only [← List.append_assoc] at h
  exact Decimal.digits_of_append rfl rfl h

/-! ## 2. A program -/

/-- What a program does with a structure it has open. -/
inductive CtrlUse where
  | request (cmd : Bytes) (replyLen : Nat) (msgCb : Bool)
  | attach
  | detach
  | recv (replyLen : Nat)
  | pending
deriving DecidableEq, Repr

def CtrlUse.text (ctrl : WpaCtrl) : CtrlUse → Sys Unit
  | request cmd replyLen msgCb => do
    let _ ← wpaCtrlRequest ctrl cmd replyLen msgCb
    return ()
  | attach => do
    let _ ← wpaCtrlAttach ctrl
    return ()
  | detach => do
    let _ ← wpaCtrlDetach ctrl
    return ()
  | recv replyLen => do
    let _ ← wpaCtrlRecvFrom ctrl replyLen
    return ()
  | pending => do
    let _ ← wpaCtrlPending ctrl
    return ()

/-- A call of the library. A structure is named by its place among those that are open, the
latest first. -/
inductive ClientCall where
  | open2 (ctrlPath : Bytes) (cliPath : Option Bytes)
  | use (i : Nat) (u : CtrlUse)
  | close (i : Nat)
deriving DecidableEq, Repr

/-- A program that has `live` open: it returns what it has open in the end. -/
def client : List ClientCall → List WpaCtrl → Sys (List WpaCtrl)
  | [], live => .ret live
  | .open2 ctrlPath cliPath :: calls, live => do
    let opened ← wpaCtrlOpen2 ctrlPath cliPath
    client calls (opened.toList ++ live)
  | .use i u :: calls, live =>
    match live[i]? with
    | none => client calls live
    | some ctrl => do
      u.text ctrl
      client calls live
  | .close i :: calls, live =>
    match live[i]? with
    | none => client calls live
    | some ctrl => do
      wpaCtrlClose ctrl
      client calls (live.erase ctrl)

/-- Whether a call opens a structure. -/
def ClientCall.opens : ClientCall → Bool
  | open2 _ _ => true
  | _ => false

/-- No path of the control interface is too long. -/
def ClientCall.fits : ClientCall → Prop
  | open2 ctrlPath _ => destPath ctrlPath ≠ none
  | _ => True

/-- Two structures have nothing in common. -/
def WpaCtrl.Apart (a b : WpaCtrl) : Prop := a.ptr ≠ b.ptr ∧ a.s ≠ b.s ∧ a.localPath ≠ b.localPath

instance : Std.Symm WpaCtrl.Apart := ⟨fun _ _ h => ⟨h.1.symm, h.2.1.symm, h.2.2.symm⟩⟩

/-- What is there is what `live` holds: each structure with a socket and a socket file of its
own. A file that none of them holds has been left where a path was too long. -/
structure Inventory (fits : Prop) (live : List WpaCtrl) (k : Kernel) : Prop where
  structs : ∀ ptr ctrl, k.structs ptr = some ctrl ↔ ctrl ∈ live ∧ ctrl.ptr = ptr
  sockets : ∀ fd, fd ∈ k.sockets ↔ ∃ ctrl ∈ live, ctrl.s = fd
  files : ∀ ctrl ∈ live, ctrl.localPath ∈ k.files
  apart : live.Pairwise WpaCtrl.Apart
  valid : ∀ ctrl ∈ live, 0 ≤ ctrl.s
  owned : fits → ∀ path ∈ k.files, ∃ ctrl ∈ live, ctrl.localPath = path
  named : ∀ path ∈ k.files, ∃ cliPath pid, ∃ n : Nat,
    path = clientPath cliPath pid n ∧ (n : Int) < k.opened
  counted : 0 ≤ k.opened ∧ k.opened ≤ intMax

namespace Kernel

/-- The state without what `ctrl` holds. -/
def without (k : Kernel) (ctrl : WpaCtrl) : Kernel :=
  { k with structs := Function.update k.structs ctrl.ptr none,
           sockets := k.sockets.erase ctrl.s, files := k.files.erase ctrl.localPath,
           opened := k.opened - 1 }

theorem fresh_without {k : Kernel} {ctrl : WpaCtrl} (h : 0 ≤ ctrl.s) :
    (k.without ctrl).Fresh ctrl :=
  ⟨Function.update_self .., h, Finset.notMem_erase _ _⟩

end Kernel

namespace CtrlClientLemmas

variable {fits : Prop} {live : List WpaCtrl} {k k' : Kernel} {ctrl : WpaCtrl} {w : CtrlWorld}

/-- The file that is tried next is not there. -/
theorem inventory_free (h : Inventory fits live k) (cliPath : Option Bytes) (pid : Int) :
    clientPath cliPath pid k.opened ∉ k.files := by
  intro hmem
  obtain ⟨cliPath', pid', n, hname, hlt⟩ := h.named _ hmem
  obtain ⟨m, hm⟩ := Int.eq_ofNat_of_zero_le h.counted.1
  rw [hm] at hname hlt
  have hsame := clientPath_injective hname
  omega

theorem opened_passed_without (h : Inventory fits live k) (F : Finset Bytes) :
    ((k.without ctrl).passed F).opened = k.opened :=
  intSucc_sub_one h.counted.2

/-- Giving a structure back leaves what the others hold. -/
theorem inventory_close (h : Inventory fits live k) (hctrl : ctrl ∈ live) :
    Inventory fits (live.erase ctrl) ((k.without ctrl).passed (k.without ctrl).files) := by
  have hnodup : live.Nodup := h.apart.imp fun hne heq => hne.1 (congrArg WpaCtrl.ptr heq)
  have hmem : ∀ {c}, c ∈ live.erase ctrl ↔ c ≠ ctrl ∧ c ∈ live := hnodup.mem_erase_iff
  have hapart : ∀ c ∈ live, c ≠ ctrl → c.Apart ctrl := fun c hc hne => h.apart.forall hc hctrl hne
  refine ⟨fun ptr c => ?_, fun fd => ?_, fun c hc => ?_, h.apart.sublist List.erase_sublist,
    fun c hc => h.valid c (hmem.mp hc).2, fun hfits path hpath => ?_, fun path hpath => ?_, ?_⟩
  · change Function.update k.structs ctrl.ptr none ptr = some c ↔ _
    by_cases hptr : ptr = ctrl.ptr
    · subst hptr
      rw [Function.update_self, hmem]
      refine ⟨fun hno => (Option.some_ne_none c hno.symm).elim, fun ⟨⟨hne, hc⟩, hsame⟩ => ?_⟩
      exact ((hapart c hc hne).1 hsame).elim
    · rw [Function.update_of_ne hptr, h.structs, hmem]
      refine ⟨fun ⟨hc, hsame⟩ => ⟨⟨fun heq => hptr (heq ▸ hsame).symm, hc⟩, hsame⟩,
        fun ⟨⟨_, hc⟩, hsame⟩ => ⟨hc, hsame⟩⟩
  · change fd ∈ k.sockets.erase ctrl.s ↔ _
    rw [Finset.mem_erase, h.sockets]
    refine ⟨fun ⟨hfd, c, hc, hsame⟩ =>
      ⟨c, hmem.mpr ⟨fun heq => hfd (heq ▸ hsame).symm, hc⟩, hsame⟩, ?_⟩
    rintro ⟨c, hc, rfl⟩
    exact ⟨(hapart c (hmem.mp hc).2 (hmem.mp hc).1).2.1, c, (hmem.mp hc).2, rfl⟩
  · exact Finset.mem_erase.mpr
      ⟨(hapart c (hmem.mp hc).2 (hmem.mp hc).1).2.2, h.files c (hmem.mp hc).2⟩
  · obtain ⟨hne, hold⟩ := Finset.mem_erase.mp hpath
    obtain ⟨c, hc, rfl⟩ := h.owned hfits path hold
    exact ⟨c, hmem.mpr ⟨fun heq => hne (congrArg WpaCtrl.localPath heq), hc⟩, rfl⟩
  · obtain ⟨cliPath, pid, n, hname, hlt⟩ := h.named path (Finset.mem_of_mem_erase hpath)
    exact ⟨cliPath, pid, n, hname, hlt.trans_eq (intSucc_sub_one h.counted.2).symm⟩
  · rw [opened_passed_without h]
    exact h.counted

/-- The names of files stay older than the next, also that of a file just made. -/
theorem named_insert (h : Inventory fits live k) (hlt : k.opened < intMax)
    (cliPath : Option Bytes) (pid : Int) :
    ∀ path ∈ insert (clientPath cliPath pid k.opened) k.files, ∃ cliPath pid, ∃ n : Nat,
      path = clientPath cliPath pid n ∧ (n : Int) < intSucc k.opened := by
  rw [intSucc_of_lt hlt]
  intro path hmem
  rcases Finset.mem_insert.mp hmem with rfl | hold
  · obtain ⟨m, hm⟩ := Int.eq_ofNat_of_zero_le h.counted.1
    exact ⟨cliPath, pid, m, by rw [hm], by omega⟩
  · obtain ⟨cliPath', pid', n, hname, hlt⟩ := h.named path hold
    exact ⟨cliPath', pid', n, hname, by omega⟩

theorem counted_succ (h : Inventory fits live k) (hlt : k.opened < intMax) :
    0 ≤ intSucc k.opened ∧ intSucc k.opened ≤ intMax := by
  rw [intSucc_of_lt hlt]
  exact ⟨h.counted.1.trans (Int.le_add_one le_rfl), hlt⟩

/-- An opening takes at most one number of the counter. -/
theorem opened_le {ctrlPath : Bytes} {cliPath : Option Bytes} {o : Option WpaCtrl}
    (hlt : k.opened < intMax) (hopened : Opened ctrlPath cliPath k o k') :
    k'.opened ≤ k.opened + 1 := by
  cases o with
  | none =>
    obtain rfl | ⟨F, rfl, -⟩ := hopened
    · exact Int.le_add_one le_rfl
    · exact (intSucc_of_lt hlt).le
  | some ctrl =>
    obtain ⟨-, -, -, rfl⟩ := hopened
    exact (intSucc_of_lt hlt).le

/-- What an opening leaves behind is one more structure, or nothing. -/
theorem inventory_open2 {ctrlPath : Bytes} {cliPath : Option Bytes} {o : Option WpaCtrl}
    (h : Inventory fits live k) (hlt : k.opened < intMax)
    (hfits : fits → destPath ctrlPath ≠ none) (hopened : Opened ctrlPath cliPath k o k') :
    Inventory fits (o.toList ++ live) k' := by
  have hcounted := counted_succ h hlt
  cases o with
  | none =>
    obtain rfl | ⟨F, rfl, rfl | ⟨hdest, pid, rfl⟩⟩ := hopened
    · exact h
    · exact ⟨h.structs, h.sockets, h.files, h.apart, h.valid, h.owned,
        fun path hpath => named_insert h hlt none 0 path (Finset.mem_insert_of_mem hpath),
        hcounted⟩
    · exact ⟨h.structs, h.sockets, fun c hc => Finset.mem_insert_of_mem (h.files c hc), h.apart,
        h.valid, fun hf => (hfits hf hdest).elim, named_insert h hlt cliPath pid, hcounted⟩
  | some ctrl =>
    obtain ⟨hfresh, hpath, ⟨pid, hname⟩, rfl⟩ := hopened
    have hapart : ∀ c ∈ live, ctrl.Apart c := fun c hc =>
      ⟨fun heq =>
        Option.some_ne_none c (((h.structs _ c).mpr ⟨hc, heq.symm⟩).symm.trans hfresh.ptr),
        fun heq => hfresh.s ((h.sockets _).mpr ⟨c, hc, heq.symm⟩),
        fun heq => hpath (heq ▸ h.files c hc)⟩
    refine ⟨fun ptr c => ?_, fun fd => ?_, fun c hc => ?_,
      List.pairwise_cons.mpr ⟨hapart, h.apart⟩, fun c hc => ?_, fun hf path hmem => ?_,
      hname ▸ named_insert h hlt cliPath pid, hcounted⟩
    · change Function.update k.structs ctrl.ptr (some ctrl) ptr = some c ↔ c ∈ ctrl :: live ∧ _
      by_cases hptr : ptr = ctrl.ptr
      · subst hptr
        rw [Function.update_self, Option.some_inj, List.mem_cons]
        refine ⟨fun heq => ⟨.inl heq.symm, heq ▸ rfl⟩, ?_⟩
        rintro ⟨rfl | hc, hsame⟩
        · rfl
        · exact ((hapart c hc).1 hsame.symm).elim
      · rw [Function.update_of_ne hptr, h.structs, List.mem_cons]
        refine ⟨fun ⟨hc, hsame⟩ => ⟨.inr hc, hsame⟩, ?_⟩
        rintro ⟨rfl | hc, hsame⟩
        · exact (hptr hsame.symm).elim
        · exact ⟨hc, hsame⟩
    · change fd ∈ insert ctrl.s k.sockets ↔ ∃ c ∈ ctrl :: live, _
      rw [Finset.mem_insert, h.sockets, List.exists_mem_cons_iff, eq_comm]
    · rcases List.mem_cons.mp hc with rfl | hc
      · exact Finset.mem_insert_self _ _
      · exact Finset.mem_insert_of_mem (h.files c hc)
    · rcases List.mem_cons.mp hc with rfl | hc
      · exact hfresh.socket
      · exact h.valid c hc
    · rcases Finset.mem_insert.mp hmem with rfl | hold
      · exact ⟨ctrl, List.mem_cons_self, rfl⟩
      · obtain ⟨c, hc, hsame⟩ := h.owned hf path hold
        exact ⟨c, List.mem_cons_of_mem _ hc, hsame⟩

/-- What is there, with what `ctrl` holds set apart. -/
theorem holding_without (h : Inventory fits live k) (hctrl : ctrl ∈ live) :
    (k.without ctrl).holding ctrl (insert ctrl.localPath (k.without ctrl).files) = k := by
  have hstructs : Function.update (Function.update k.structs ctrl.ptr none) ctrl.ptr (some ctrl) =
      k.structs := by
    rw [Function.update_idem, ← (h.structs _ ctrl).mpr ⟨hctrl, rfl⟩, Function.update_eq_self]
  have hsockets : insert ctrl.s (k.sockets.erase ctrl.s) = k.sockets :=
    Finset.insert_erase ((h.sockets _).mpr ⟨ctrl, hctrl, rfl⟩)
  have hfiles : insert ctrl.localPath (k.files.erase ctrl.localPath) = k.files :=
    Finset.insert_erase (h.files ctrl hctrl)
  simp only [Kernel.holding, Kernel.without, hstructs, hsockets, hfiles,
    intSucc_sub_one h.counted.2]

/-- The calls of a use are made on the socket of the structure. -/
theorem only_use (ctrl : WpaCtrl) (u : CtrlUse) :
    ∃ len, Only (SysCall.isRequest ctrl.s len) False (u.text ctrl) := by
  cases u with
  | request cmd replyLen msgCb =>
    exact ⟨replyLen, only_bind (CtrlIfaceLemmas.only_wpaCtrlRequest (fun _ hc => hc) cmd msgCb)
      fun _ => only_ret _⟩
  | attach =>
    exact ⟨attachCap, only_bind (CtrlIfaceLemmas.only_wpaCtrlAttachHelper (fun _ hc => hc) true)
      fun _ => only_ret _⟩
  | detach =>
    exact ⟨attachCap, only_bind (CtrlIfaceLemmas.only_wpaCtrlAttachHelper (fun _ hc => hc) false)
      fun _ => only_ret _⟩
  | recv replyLen =>
    exact ⟨replyLen, only_call (by simp [SysCall.isRequest, SysCall.isReceive]) fun _ => only_ret _⟩
  | pending =>
    exact ⟨0, only_call (by simp [SysCall.isRequest, SysCall.isReceive]) fun _ => only_ret _⟩

/-- Using a structure may take messages, and leaves everything else. -/
theorem keeps_use (h : Inventory fits live k) (hctrl : ctrl ∈ live) (u : CtrlUse) :
    Keeps ctrlSpec (w.at k) (u.text ctrl) fun _ w' => ∃ q, w' = w.at { k with queue := q } := by
  obtain ⟨len, honly⟩ := only_use ctrl u
  have hk := holding_without h hctrl
  have hkeeps := CtrlLemmas.keeps_request (w := w) (k := k.without ctrl)
    (F := insert ctrl.localPath (k.without ctrl).files) honly
  rw [hk] at hkeeps
  refine hkeeps.mono ?_
  rintro _ _ ⟨q, rfl⟩
  exact ⟨q, congrArg w.at (congrArg (fun k : Kernel => { k with queue := q }) hk)⟩

theorem inventory_queue (h : Inventory fits live k) (q : List Bytes) :
    Inventory fits live { k with queue := q } :=
  ⟨h.structs, h.sockets, h.files, h.apart, h.valid, h.owned, h.named, h.counted⟩

theorem keeps_client {calls : List ClientCall} (h : Inventory fits live k)
    (hcount : k.opened + calls.countP ClientCall.opens ≤ intMax)
    (hfits : fits → ∀ c ∈ calls, c.fits) :
    Keeps ctrlSpec (w.at k) (client calls live) fun live' w' =>
      ∃ k', w' = w.at k' ∧ Inventory fits live' k' := by
  induction calls generalizing live k with
  | nil => exact keeps_ret ⟨k, rfl, h⟩
  | cons c calls ih =>
    have hrest : fits → ∀ c ∈ calls, c.fits := fun hf c hc => hfits hf c (List.mem_cons_of_mem _ hc)
    rw [List.countP_cons] at hcount
    cases c with
    | open2 ctrlPath cliPath =>
      simp only [ClientCall.opens, if_true] at hcount
      have hlt : k.opened < intMax := by omega
      refine keeps_bind
        ((CtrlLemmas.keeps_wpaCtrlOpen2 ctrlPath cliPath (inventory_free h cliPath)).mono ?_)
      rintro o _ ⟨k', rfl, hopened⟩
      have hle := opened_le hlt hopened
      exact ih (inventory_open2 h hlt (fun hf => hfits hf _ List.mem_cons_self) hopened)
        (by omega) hrest
    | use i u =>
      rw [client]
      split
      · exact ih h hcount hrest
      · rename_i ctrl hi
        refine keeps_bind ((keeps_use h (List.mem_of_getElem? hi) u).mono ?_)
        rintro _ _ ⟨q, rfl⟩
        exact ih (inventory_queue h q) hcount hrest
    | close i =>
      rw [client]
      split
      · exact ih h hcount hrest
      · rename_i ctrl hi
        have hctrl := List.mem_of_getElem? hi
        have hclose := CtrlLemmas.keeps_wpaCtrlClose (w := w)
          (Kernel.fresh_without (k := k) (h.valid ctrl hctrl)) (Finset.notMem_erase _ _)
        rw [holding_without h hctrl] at hclose
        refine keeps_bind (hclose.mono fun _ w' hw' => ?_)
        subst hw'
        refine ih (inventory_close h hctrl) ?_ hrest
        rwa [opened_passed_without h]

end CtrlClientLemmas

open CtrlClientLemmas

/-- Whatever a program opens, uses and closes, and on every outcome of the calls of the
library, nothing is accessed that is not there, and what is there is what is open: no two
structures share a socket or a socket file, and none loses its own to another. That holds
as long as the counter of `wpa_ctrl_open2` does not overflow. -/
theorem client_conserves (calls : List ClientCall)
    (hcount : (calls.countP ClientCall.opens : Int) < intMax) {rs : List SysAnswer}
    (hrs : Answered {} ((client calls []).trace rs)) :
    (client calls []).after rs ≠ .fault ∧
      (CtrlWorld.after {} ((client calls []).trace rs)).kernel.misused = false ∧
      ∀ live, (client calls []).after rs = .ret live → Inventory (∀ c ∈ calls, c.fits) live
        (CtrlWorld.after {} ((client calls []).trace rs)).kernel := by
  have hempty : Inventory (∀ c ∈ calls, c.fits) [] {} :=
    ⟨by simp, by simp, by simp, .nil, by simp, by simp, by simp, by decide, by decide⟩
  have hkeeps : Keeps ctrlSpec {} (client calls []) fun live' w' =>
      ∃ k', w' = CtrlWorld.at {} k' ∧ Inventory (∀ c ∈ calls, c.fits) live' k' :=
    keeps_client (w := {}) hempty (Int.add_comm 1 _ ▸ hcount) id
  obtain ⟨hsafe, hmisused, hreturns⟩ := Keeps.world hkeeps hrs
  refine ⟨hsafe, hmisused, fun live hret => ?_⟩
  obtain ⟨k', hk', hinventory⟩ := hreturns live hret
  rw [hk']
  exact hinventory

/-- The driver's own interface and another are opened, and the first is closed. -/
def sampleCalls : List ClientCall :=
  [.open2 controlPath none, .open2 (bytes "@abstract:wpa") (some (bytes "/run")),
    .use 0 .pending, .close 1]

def sampleClient : List SysAnswer :=
  sampleOpen.append [{ handle := some 8 }, { ret := 4 }, {}, { ret := 2 }, { ret := 250 }, {}, {},
    {}, { ret := 2 }, {}, { isSet := true }, {}, {}, {}]

theorem sampleClient_conserves :
    Inventory (∀ c ∈ sampleCalls, c.fits) [⟨8, 4, bytes "/run/wpa_ctrl_250-2"⟩]
      (CtrlWorld.after {} ((client sampleCalls []).trace sampleClient)).kernel :=
  (@client_conserves sampleCalls (by decide) sampleClient (by decide)).2.2 _ rfl

end P2pDriver
