import Xv6.Proc.Invariant

/-!
# The critical sections of `fork`, `exit` and `wait` keep the invariant

One lemma for each section that changes more than the position of a process.
-/

namespace Xv6.Proc

open Xv6.Lib

/-! ### The sections of `fork` -/

theorem wrap32_nextpid {s : Sys} (hs : PidInv s) (hb : s.creations + 1 < 2 ^ 31 - 1) :
    wrap32 (s.nextpid + 1) = s.nextpid + 1 := by
  have := hs.nextpid
  unfold wrap32
  rw [Int.bmod_eq_of_le] <;> omega

theorem proc_forkTake (s : Sys) (p i j : Slot) :
    (s.forkTake p i).proc j = if j = i then
      { s.proc i with
        pid := s.nextpid
        state := .USED
        traceMask := ((s.toTable.takeSlot i).proc p).traceMask }
    else s.proc j := by
  simp only [Sys.forkTake, Table.set_proc]
  split
  · next h =>
    subst h
    simp [Table.takeSlot, Table.set_proc]
  · next h => simp [Table.takeSlot, Table.set_proc, h]

theorem inv_forkTake {s : Sys} (hs : Inv s) {p i : Slot} (hp : Active s p)
    (hfree : (s.proc i).state = .UNUSED) (hb : s.creations + 1 < 2 ^ 31 - 1) :
    Inv (s.forkTake p i) := by
  have hproc := proc_forkTake s p i
  have hnext : (s.forkTake p i).nextpid = s.nextpid + 1 := wrap32_nextpid hs.pids hb
  have hactive (j : Slot) : Active (s.forkTake p i) j ↔ Active s j := by
    by_cases hj : j = i
    · subst hj; simp [Active, hproc, hfree]
    · simp [Active, hproc, hj]
  have hlive {j : Slot} (h : Live (s.forkTake p i) j) (hj : j ≠ i) : Live s j := by
    simpa [Live, hproc, hj] using h
  have hzombie (j : Slot) (h : ((s.forkTake p i).proc j).state = .ZOMBIE) :
      j ≠ i ∧ (s.proc j).state = .ZOMBIE := by
    rw [hproc] at h
    split at h
    · cases h
    · next hj => exact ⟨hj, h⟩
  have hold {j : Slot} (h : Active s j) : j ≠ i := by
    rintro rfl
    exact h.live hfree
  refine ⟨⟨?_, ?_, ?_⟩, ⟨?_, ?_, ?_, ?_⟩, ?_⟩
  · rw [hnext, hs.pids.nextpid]
    simp [Sys.forkTake]
  · intro j hj
    rw [hnext, hproc]
    split
    · have := hs.pids.nextpid
      dsimp only
      omega
    · next hji =>
      have := hs.pids.range j (hlive hj hji)
      omega
  · -- the new pid is above all others
    intro a b ha hb he
    rw [hproc, hproc] at he
    split at he <;> split at he
    · next ha' hb' => exact ha'.trans hb'.symm
    · next ha' hb' =>
      have := hs.pids.range b (hlive hb hb')
      dsimp only at he
      omega
    · next ha' hb' =>
      have := hs.pids.range a (hlive ha ha')
      dsimp only at he
      omega
    · next ha' hb' => exact hs.pids.distinct a b (hlive ha ha') (hlive hb hb') he
  · exact (hactive _).mpr hs.family.init
  · intro j hj hst
    have hst' : Started s j := by
      rcases hst with ha | hz
      · exact Or.inl ((hactive j).mp ha)
      · exact Or.inr (hzombie j hz).2
    have hji : j ≠ i := by
      rintro rfl
      simp [Started, Active, hfree] at hst'
    obtain ⟨q, hq, hact, hor⟩ := hs.family.parents j hj hst'
    refine ⟨q, by simpa [hproc, hji] using hq, (hactive q).mpr hact, ?_⟩
    rw [hproc, if_neg (hold hact)]
    exact hor
  · refine pcs_update hs.family p _ rfl ⟨(hactive p).mpr hp, by rw [hproc, if_pos rfl]⟩ ?_
    intro q _ hqa hok
    refine hok.mono rfl (hactive q).mpr (by rw [hproc, if_neg (hold hqa)]) ?_ ?_ ?_
    · intro np hc
      have hne : np ≠ i := by
        rintro rfl
        cases (hok.child_used hc).symm.trans hfree
      rw [hproc, if_neg hne]
    · intro np hc
      have hne : np ≠ i := by
        rintro rfl
        rw [hc] at hok
        cases hok.2.1.symm.trans hfree
      rw [hproc, if_neg hne]
      exact ⟨rfl, rfl⟩
    · intro _ j hj
      rw [hproc] at hj
      split at hj
      · next hji => subst hji; exact hj
      · exact hj
  · apply forker_update hs.family.forker
    intro np hnp
    cases Option.some.inj hnp
    refine Or.inr ?_
    intro q hq
    cases ((hs.family.pcs q).child_used hq).symm.trans hfree
  · refine hs.history.mono rfl (by omega) ?_ ?_
    · intro j hj
      obtain ⟨hji, hz⟩ := hzombie j hj
      rw [hproc, if_neg hji]
      exact ⟨hz, rfl, rfl⟩
    · intro j hj
      rw [hproc]
      split
      · exact Or.inr (le_refl _)
      · next hji => exact Or.inl ⟨hlive hj hji, rfl, id⟩

theorem proc_forkFail (s : Sys) (p i j : Slot) :
    (s.forkFail p i).proc j = if j = i then (s.proc i).free else s.proc j := by
  simp only [Sys.forkFail, Table.freeproc, Table.set_proc]
  split
  · simp [Table.takeSlot, Table.set_proc, Proc.free]
  · next h => simp [Table.takeSlot, Table.set_proc, h]

theorem inv_forkFail {s : Sys} (hs : Inv s) {p i : Slot}
    (hfree : (s.proc i).state = .UNUSED) (hb : s.creations + 1 < 2 ^ 31 - 1) :
    Inv (s.forkFail p i) := by
  have hproc := proc_forkFail s p i
  have hnext : (s.forkFail p i).nextpid = s.nextpid + 1 := wrap32_nextpid hs.pids hb
  -- the slot is free before and after, and nothing looks at a free slot
  have hstate (j : Slot) : ((s.forkFail p i).proc j).state = (s.proc j).state := by
    rw [hproc]
    split
    · next hj => subst hj; exact hfree.symm
    · rfl
  have hne {j : Slot} (h : Live s j) : j ≠ i := by
    rintro rfl
    exact h hfree
  have hsame {j : Slot} (h : Live s j) : (s.forkFail p i).proc j = s.proc j := by
    rw [hproc, if_neg (hne h)]
  have hactive (j : Slot) : Active (s.forkFail p i) j ↔ Active s j := by
    simp only [Active, hstate]
  have hlive (j : Slot) : Live (s.forkFail p i) j ↔ Live s j := by
    simp only [Live, hstate]
  refine ⟨⟨?_, ?_, ?_⟩, ⟨?_, ?_, ?_, ?_⟩, ?_⟩
  · rw [hnext, hs.pids.nextpid]
    simp [Sys.forkFail]
  · intro j hj
    have hj := (hlive j).mp hj
    have := hs.pids.range j hj
    rw [hnext, hsame hj]
    omega
  · intro a b ha hb
    have ha := (hlive a).mp ha
    have hb := (hlive b).mp hb
    rw [hsame ha, hsame hb]
    exact hs.pids.distinct a b ha hb
  · exact (hactive _).mpr hs.family.init
  · intro j hj hst
    simp only [Started, hactive, hstate] at hst
    obtain ⟨q, hq, hact, hor⟩ := hs.family.parents j hj hst
    have hjl : Live s j := by
      rcases hst with ha | hz
      · exact ha.live
      · simp [Live, hz]
    refine ⟨q, by rw [hsame hjl]; exact hq, (hactive q).mpr hact, ?_⟩
    rw [hsame hact.live]
    exact hor
  · refine pcs_update hs.family p .user rfl True.intro ?_
    intro q _ hqa hok
    refine hok.mono rfl (hactive q).mpr (by rw [hsame hqa.live]) (fun np _ ↦ hstate np) ?_ ?_
    · intro np hc
      rw [hc] at hok
      rw [hsame (by simp [Live, hok.2.1])]
      exact ⟨rfl, rfl⟩
    · intro _ j hj
      rw [hproc] at hj
      split at hj
      · cases hj
      · exact hj
  · exact forker_update hs.family.forker (fun np hnp ↦ by cases hnp)
  · refine hs.history.mono rfl (by omega) ?_ ?_
    · intro j hj
      rw [hstate] at hj
      rw [hsame (by simp [Live, hj])]
      exact ⟨hj, rfl, rfl⟩
    · intro j hj
      have hj := (hlive j).mp hj
      rw [hsame hj]
      exact Or.inl ⟨hj, rfl, id⟩

theorem inv_forkSetParent {s : Sys} (hs : Inv s) {p np : Slot} (hpc : s.pc p = .forkParent np) :
    Inv (s.forkSetParent p np) := by
  have hok := hs.family.pcs p
  rw [hpc] at hok
  obtain ⟨hp, hused⟩ := hok
  have hproc (j : Slot) : (s.forkSetParent p np).proc j =
      if j = np then { s.proc np with parent := some p } else s.proc j := Table.set_proc _ _ _ _
  have hstate (j : Slot) : ((s.forkSetParent p np).proc j).state = (s.proc j).state := by
    rw [hproc]; split <;> simp_all
  have hpid (j : Slot) : ((s.forkSetParent p np).proc j).pid = (s.proc j).pid := by
    rw [hproc]; split <;> simp_all
  have hx (j : Slot) : ((s.forkSetParent p np).proc j).xstate = (s.proc j).xstate := by
    rw [hproc]; split <;> simp_all
  have hactive (j : Slot) : Active (s.forkSetParent p np) j ↔ Active s j := by
    simp only [Active, hstate]
  refine ⟨?_, ⟨?_, ?_, ?_, ?_⟩, ?_⟩
  · refine hs.pids.mono rfl rfl ?_
    intro j hj
    exact ⟨by simpa only [Live, hstate] using hj, hpid j⟩
  · exact (hactive _).mpr hs.family.init
  · intro j hj hst
    simp only [Started, hactive, hstate] at hst
    have hne : j ≠ np := by
      rintro rfl
      simp [Active, hused] at hst
    obtain ⟨q, hq, hact, hor⟩ := hs.family.parents j hj hst
    refine ⟨q, by rw [hproc, if_neg hne]; exact hq, (hactive q).mpr hact, ?_⟩
    rw [hpid]
    change q = s.initproc ∨ (s.proc q).pid = Function.update s.forkedBy np (s.proc p).pid j
    rw [Function.update_of_ne hne]
    exact hor
  · refine pcs_update hs.family p _ rfl ?_ ?_
    · refine ⟨(hactive p).mpr hp, (hstate np).trans hused, ?_, ?_⟩
      · rw [hproc, if_pos rfl]
      · rw [hpid]
        exact Function.update_self np _ _
    · intro q hqp _ hok
      refine hok.mono rfl (hactive q).mpr (hpid q) (fun c _ ↦ hstate c) ?_ ?_
      · intro c hc
        have hne : c ≠ np := by
          rintro rfl
          exact hqp (hs.family.forker q p c (by rw [hc]; rfl) (by rw [hpc]; rfl))
        rw [hproc, if_neg hne]
        exact ⟨rfl, Function.update_of_ne hne _ _⟩
      · intro _ j hj
        rw [hproc] at hj
        split at hj
        · exact (hqp (Option.some.inj hj).symm).elim
        · exact hj
  · refine forker_update hs.family.forker (fun c hc ↦ Or.inl ?_)
    rw [hpc]
    exact hc
  · refine hs.history.mono rfl (le_refl _) ?_ ?_
    · intro j hj
      exact ⟨(hstate j).symm.trans hj, hpid j, hx j⟩
    · intro j hj
      refine Or.inl ⟨by simpa only [Live, hstate] using hj, hpid j, ?_⟩
      exact fun hz ↦ (hstate j).trans hz

theorem inv_forkFinish {s : Sys} (hs : Inv s) {p np : Slot} (hpc : s.pc p = .forkRun np) :
    Inv (s.forkFinish p np) := by
  have hok := hs.family.pcs p
  rw [hpc] at hok
  obtain ⟨hp, hused, hparent, hforked⟩ := hok
  have hproc (j : Slot) : (s.forkFinish p np).proc j =
      if j = np then { s.proc np with state := .RUNNABLE } else s.proc j := Table.set_proc _ _ _ _
  have hpid (j : Slot) : ((s.forkFinish p np).proc j).pid = (s.proc j).pid := by
    rw [hproc]; split <;> simp_all
  have hpar (j : Slot) : ((s.forkFinish p np).proc j).parent = (s.proc j).parent := by
    rw [hproc]; split <;> simp_all
  have hstate {j : Slot} (hj : j ≠ np) :
      ((s.forkFinish p np).proc j).state = (s.proc j).state := by rw [hproc, if_neg hj]
  have hnew : Active (s.forkFinish p np) np := Or.inl (by rw [hproc, if_pos rfl])
  have hactive {j : Slot} (h : Active s j) : Active (s.forkFinish p np) j := by
    by_cases hj : j = np
    · rw [hj]; exact hnew
    · simpa only [Active, hstate hj] using h
  have hlive {j : Slot} (h : Live (s.forkFinish p np) j) : Live s j := by
    by_cases hj : j = np
    · simp [Live, hj, hused]
    · simpa only [Live, hstate hj] using h
  refine ⟨?_, ⟨?_, ?_, ?_, ?_⟩, ?_⟩
  · exact hs.pids.mono rfl rfl (fun j hj ↦ ⟨hlive hj, hpid j⟩)
  · exact hactive hs.family.init
  · intro j hj hst
    by_cases hjn : j = np
    · subst hjn
      exact ⟨p, (hpar j).trans hparent, hactive hp, Or.inr ((hpid p).trans hforked.symm)⟩
    · simp only [Started, Active, hstate hjn] at hst
      obtain ⟨q, hq, hact, hor⟩ := hs.family.parents j hj hst
      refine ⟨q, (hpar j).trans hq, hactive hact, ?_⟩
      rw [hpid]
      exact hor
  · refine pcs_update hs.family p .user rfl True.intro ?_
    intro q hqp _ hok
    refine hok.mono rfl hactive (hpid q) ?_ (fun c _ ↦ ⟨hpar c, rfl⟩) ?_
    · intro c hc
      apply hstate
      rintro rfl
      exact hqp (hs.family.forker q p c hc (by rw [hpc]; rfl))
    · intro _ j hj
      exact (hpar j).symm.trans hj
  · exact forker_update hs.family.forker (fun c hc ↦ by cases hc)
  · have hz {j : Slot} : ((s.forkFinish p np).proc j).state = .ZOMBIE ↔
        (s.proc j).state = .ZOMBIE := by
      by_cases hj : j = np
      · subst hj; simp [hproc, hused]
      · rw [hstate hj]
    refine hs.history.mono rfl (le_refl _) ?_ ?_
    · intro j hj
      refine ⟨hz.mp hj, hpid j, ?_⟩
      rw [hproc]; split <;> simp_all
    · intro j hj
      exact Or.inl ⟨hlive hj, hpid j, hz.mpr⟩

/-! ### The sections of `exit` and `wait` -/

theorem inv_giveToInit {s : Sys} (hs : Inv s) {p i : Slot} {status : Int}
    (hpc : s.pc p = .exitReparent status i) (hi : (s.proc i).parent = some p) :
    Inv (s.giveToInit p i status) := by
  have hok := hs.family.pcs p
  rw [hpc] at hok
  obtain ⟨hp, hne, hbelow⟩ := hok
  have hproc (j : Slot) : (s.giveToInit p i status).proc j =
      if j = i then { s.proc i with parent := some s.initproc } else s.proc j :=
    Table.set_proc _ _ _ _
  have hstate (j : Slot) : ((s.giveToInit p i status).proc j).state = (s.proc j).state := by
    rw [hproc]; split <;> simp_all
  have hpid (j : Slot) : ((s.giveToInit p i status).proc j).pid = (s.proc j).pid := by
    rw [hproc]; split <;> simp_all
  have hactive (j : Slot) : Active (s.giveToInit p i status) j ↔ Active s j := by
    simp only [Active, hstate]
  refine ⟨?_, ⟨?_, ?_, ?_, ?_⟩, ?_⟩
  · refine hs.pids.mono rfl rfl ?_
    intro j hj
    exact ⟨by simpa only [Live, hstate] using hj, hpid j⟩
  · exact (hactive _).mpr hs.family.init
  · intro j hj hst
    simp only [Started, hactive, hstate] at hst
    by_cases hji : j = i
    · refine ⟨s.initproc, ?_, (hactive _).mpr hs.family.init, Or.inl rfl⟩
      rw [hproc, if_pos hji]
    · obtain ⟨q, hq, hact, hor⟩ := hs.family.parents j hj hst
      refine ⟨q, by rw [hproc, if_neg hji]; exact hq, (hactive q).mpr hact, ?_⟩
      rw [hpid]
      exact hor
  · refine pcs_update hs.family p _ rfl ?_ ?_
    · refine ⟨(hactive p).mpr hp, hne, ?_⟩
      intro j hj
      rw [hproc]
      split
      · exact fun he ↦ hne (Option.some.inj he).symm
      · next hji =>
        apply hbelow
        have : j.val ≠ i.val := fun he ↦ hji (Fin.ext he)
        omega
    · intro q hqp _ hok
      refine hok.mono rfl (hactive q).mpr (hpid q) (fun c _ ↦ hstate c) ?_ ?_
      · intro c hc
        have hci : c ≠ i := by
          rintro rfl
          rw [hc] at hok
          exact hqp (Option.some.inj (hok.2.2.1.symm.trans hi))
        rw [hproc, if_neg hci]
        exact ⟨rfl, rfl⟩
      · intro hq j hj
        rw [hproc] at hj
        split at hj
        · exact (hq (Option.some.inj hj).symm).elim
        · exact hj
  · exact forker_update hs.family.forker (fun c hc ↦ by cases hc)
  · refine hs.history.mono rfl (le_refl _) ?_ ?_
    · intro j hj
      refine ⟨(hstate j).symm.trans hj, hpid j, ?_⟩
      rw [hproc]; split <;> simp_all
    · intro j hj
      refine Or.inl ⟨by simpa only [Live, hstate] using hj, hpid j, ?_⟩
      exact fun hz ↦ (hstate j).trans hz

theorem inv_becomeZombie {s : Sys} (hs : Inv s) {p : Slot} {status : Int}
    (hpc : s.pc p = .exitZombie status) : Inv (s.becomeZombie p status) := by
  have hok := hs.family.pcs p
  rw [hpc] at hok
  obtain ⟨hp, hne, hkids⟩ := hok
  have hproc (j : Slot) : (s.becomeZombie p status).proc j =
      if j = p then { s.proc p with xstate := status, state := .ZOMBIE } else s.proc j :=
    Table.set_proc _ _ _ _
  have hpid (j : Slot) : ((s.becomeZombie p status).proc j).pid = (s.proc j).pid := by
    rw [hproc]; split <;> simp_all
  have hpar (j : Slot) : ((s.becomeZombie p status).proc j).parent = (s.proc j).parent := by
    rw [hproc]; split <;> simp_all
  have hactive {j : Slot} (h : Active s j) (hj : j ≠ p) : Active (s.becomeZombie p status) j := by
    simpa only [Active, hproc, if_neg hj] using h
  have hlive {j : Slot} (h : Live (s.becomeZombie p status) j) : Live s j := by
    by_cases hj : j = p
    · rw [hj]; exact hp.live
    · simpa only [Live, hproc, if_neg hj] using h
  have hevents : (s.becomeZombie p status).events =
      s.events ++ [Event.exit (s.proc p).pid status] := rfl
  refine ⟨?_, ⟨?_, ?_, ?_, ?_⟩, ⟨?_, ?_, ?_, ?_, ?_⟩⟩
  · exact hs.pids.mono rfl rfl (fun j hj ↦ ⟨hlive hj, hpid j⟩)
  · exact hactive hs.family.init hne.symm
  · -- nobody has the exiting process as parent any more
    intro j hj hst
    have hst' : Started s j := by
      by_cases hjp : j = p
      · rw [hjp]; exact Or.inl hp
      · simpa only [Started, Active, hproc, if_neg hjp] using hst
    obtain ⟨q, hq, hact, hor⟩ := hs.family.parents j hj hst'
    have hqp : q ≠ p := by
      rintro rfl
      exact hkids j hq
    refine ⟨q, (hpar j).trans hq, hactive hact hqp, ?_⟩
    rw [hpid]
    exact hor
  · refine pcs_update hs.family p .user rfl True.intro ?_
    intro q hqp _ hok
    refine hok.mono rfl (fun h ↦ hactive h hqp) (hpid q) ?_ (fun c _ ↦ ⟨hpar c, rfl⟩) ?_
    · intro c hc
      have : c ≠ p := by
        rintro rfl
        exact hp.not_used (hok.child_used hc)
      rw [hproc, if_neg this]
    · intro _ j hj
      exact (hpar j).symm.trans hj
  · exact forker_update hs.family.forker (fun c hc ↦ by cases hc)
  · intro j hj
    rw [hevents, hpid]
    rw [hproc] at hj ⊢
    split at hj
    · next hjp => simp [hjp]
    · next hjp =>
      rw [if_neg hjp]
      exact List.mem_append_left _ (hs.history.zombie j hj)
  · intro pid st he
    rw [hevents] at he
    rcases List.mem_append.mp he with hold | hnew
    · obtain ⟨hlt, hz⟩ := hs.history.exited pid st hold
      refine ⟨hlt, ?_⟩
      intro j hj hjp
      have hzj := hz j (hlive hj) ((hpid j).symm.trans hjp)
      have hne : j ≠ p := by
        rintro rfl
        exact hp.not_zombie hzj
      rw [hproc, if_neg hne]
      exact hzj
    · cases List.mem_singleton.mp hnew
      refine ⟨(hs.pids.range p hp.live).2, ?_⟩
      intro j hj hjp
      have : j = p := hs.pids.distinct j p (hlive hj) hp.live ((hpid j).symm.trans hjp)
      rw [hproc, if_pos this]
  · rw [hevents, filterMap_exited_exit]
    refine List.nodup_append.mpr ⟨hs.history.exits, List.nodup_singleton _, ?_⟩
    intro a ha b hb hab
    have hpid : (s.proc p).pid = a := by rw [hab, List.mem_singleton.mp hb]
    obtain ⟨e, he, hea⟩ := List.mem_filterMap.mp ha
    cases e with
    | reap _ _ _ => cases hea
    | exit pid st =>
      cases Option.some.inj hea
      exact hp.not_zombie ((hs.history.exited _ st he).2 p hp.live hpid)
  · intro caller pid st he
    rw [hevents] at he ⊢
    rcases List.mem_append.mp he with hold | hnew
    · obtain ⟨hex, hno⟩ := hs.history.reaped caller pid st hold
      refine ⟨List.mem_append_left _ hex, ?_⟩
      intro j hj
      rw [hpid]
      exact hno j (hlive hj)
    · cases List.mem_singleton.mp hnew
  · rw [hevents, filterMap_reaped_exit]
    exact hs.history.reaps

theorem inv_reap {s : Sys} (hs : Inv s) {p i : Slot} (hz : (s.proc i).state = .ZOMBIE) :
    Inv (s.reap p i) := by
  have hproc (j : Slot) : (s.reap p i).proc j = if j = i then (s.proc i).free else s.proc j :=
    Table.set_proc _ _ _ _
  have hlive {j : Slot} (h : Live (s.reap p i) j) : j ≠ i ∧ Live s j := by
    have hj : j ≠ i := by
      rintro rfl
      simp [Live, hproc, Proc.free] at h
    exact ⟨hj, by simpa only [Live, hproc, if_neg hj] using h⟩
  have hsame {j : Slot} (hj : j ≠ i) : (s.reap p i).proc j = s.proc j := by
    rw [hproc, if_neg hj]
  have hne {j : Slot} (h : Active s j) : j ≠ i := by
    rintro rfl
    exact h.not_zombie hz
  have hactive {j : Slot} (h : Active s j) : Active (s.reap p i) j := by
    simpa only [Active, hsame (hne h)] using h
  have hil : Live s i := by simp [Live, hz]
  have hevents : (s.reap p i).events =
      s.events ++ [Event.reap (s.proc p).pid (s.proc i).pid (s.proc i).xstate] := rfl
  refine ⟨?_, ⟨?_, ?_, ?_, ?_⟩, ⟨?_, ?_, ?_, ?_, ?_⟩⟩
  · refine hs.pids.mono rfl rfl ?_
    intro j hj
    obtain ⟨hji, hj⟩ := hlive hj
    exact ⟨hj, by rw [hsame hji]⟩
  · exact hactive hs.family.init
  · intro j hj hst
    have hji : j ≠ i := by
      rintro rfl
      simp [Started, Active, hproc, Proc.free] at hst
    simp only [Started, Active, hsame hji] at hst
    obtain ⟨q, hq, hact, hor⟩ := hs.family.parents j hj hst
    refine ⟨q, by rw [hsame hji]; exact hq, hactive hact, ?_⟩
    rw [hsame (hne hact)]
    exact hor
  · refine pcs_update hs.family p .user rfl True.intro ?_
    intro q _ hqa hok
    have hchild {c : Slot} (hc : (s.pc q).child = some c) : c ≠ i := by
      rintro rfl
      cases (hok.child_used hc).symm.trans hz
    refine hok.mono rfl hactive (by rw [hsame (hne hqa)]) ?_ ?_ ?_
    · intro c hc
      rw [hsame (hchild hc)]
    · intro c hc
      rw [hsame (hchild (by rw [hc]; rfl))]
      exact ⟨rfl, rfl⟩
    · intro _ j hj
      rw [hproc] at hj
      split at hj
      · cases hj
      · exact hj
  · exact forker_update hs.family.forker (fun c hc ↦ by cases hc)
  · intro j hj
    have hji : j ≠ i := by
      rintro rfl
      simp [hproc, Proc.free] at hj
    rw [hsame hji] at hj ⊢
    rw [hevents]
    exact List.mem_append_left _ (hs.history.zombie j hj)
  · intro pid st he
    rw [hevents] at he
    rcases List.mem_append.mp he with hold | hnew
    · obtain ⟨hlt, hall⟩ := hs.history.exited pid st hold
      refine ⟨hlt, ?_⟩
      intro j hj
      obtain ⟨hji, hj⟩ := hlive hj
      rw [hsame hji]
      exact hall j hj
    · cases List.mem_singleton.mp hnew
  · rw [hevents, filterMap_exited_reap]
    exact hs.history.exits
  · intro caller pid st he
    rw [hevents] at he ⊢
    rcases List.mem_append.mp he with hold | hnew
    · obtain ⟨hex, hno⟩ := hs.history.reaped caller pid st hold
      refine ⟨List.mem_append_left _ hex, ?_⟩
      intro j hj
      obtain ⟨hji, hj⟩ := hlive hj
      rw [hsame hji]
      exact hno j hj
    · cases List.mem_singleton.mp hnew
      refine ⟨List.mem_append_left _ (hs.history.zombie i hz), ?_⟩
      intro j hj he
      obtain ⟨hji, hj⟩ := hlive hj
      rw [hsame hji] at he
      exact hji (hs.pids.distinct j i hj hil he)
  · rw [hevents, filterMap_reaped_reap]
    refine List.nodup_append.mpr ⟨hs.history.reaps, List.nodup_singleton _, ?_⟩
    intro a ha b hb hab
    have hpid : (s.proc i).pid = a := by rw [hab, List.mem_singleton.mp hb]
    obtain ⟨e, he, hea⟩ := List.mem_filterMap.mp ha
    cases e with
    | exit _ _ => cases hea
    | reap caller pid st =>
      cases Option.some.inj hea
      exact (hs.history.reaped caller _ st he).2 i hil hpid

end Xv6.Proc
