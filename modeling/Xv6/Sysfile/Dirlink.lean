import Xv6.Sysfile.Walk

/-!
# What `dirlink` changes

`dirlink` in a locked directory keeps all other files, the references and the locks. If it fails,
the directory is as before, but for an indirect block that it may have got.
-/

namespace Xv6.Sysfile

open Xv6.Lib Xv6.Fs Xv6.Dir

variable {sb : Super} {s s' s₁ : State} {ref : Nat → Nat} {held : Multiset Nat} {locks : List Nat}
variable {x y inum : Nat} {name : Name} {ok : Bool}

/-- A reference that `iput` gives back right after `iget`. -/
theorem iget_iput (hget : iget sb y s = .ok s₁) (hput : iput sb y s₁ = .ok s') :
    s'.disk = s.disk ∧ s'.ip = s.ip ∧ s'.locked = s.locked ∧ (∀ z, s'.ref z = s.ref z) ∧
      ∀ z, 0 < s.ref z → s'.valid z = s.valid z := by
  obtain ⟨hdisk₁, hip₁, hlocked₁, href₁, hvalid₁⟩ := iget_spec hget
  -- the only reference is to an inode whose fields are not in memory
  have hkeep : ¬ (s₁.ref y = 1 ∧ s₁.valid y = true ∧ (s₁.ip y).nlink = 0) := by
    rintro ⟨hone, hv, -⟩
    rw [href₁, if_pos rfl] at hone
    rw [hvalid₁, if_pos ⟨rfl, by omega⟩] at hv
    cases hv
  obtain ⟨hdisk, hip, hlocked, hvalid, href⟩ := iput_kept hkeep hput
  refine ⟨hdisk.trans hdisk₁, hip.trans hip₁, hlocked.trans hlocked₁, ?_, ?_⟩
  · intro z
    rw [href, href₁, if_pos rfl]
    split
    · next hz =>
      rw [hz]
      omega
    · next hz => rw [href₁, if_neg hz]
  · intro z hz
    rw [hvalid, hvalid₁, if_neg]
    rintro ⟨rfl, hzero⟩
    omega

/-- What `dirlink` in directory `x` leaves behind when it returns `ok`. -/
structure Linking (sb : Super) (x : Nat) (ok : Bool) (s s' : State) : Prop where
  ownership : BlockOwnership sb s'.disk
  self : s'.ip x = dinode sb s'.disk x
  ip : ∀ y, y ≠ x → s'.ip y = s.ip y
  type : (dinode sb s'.disk x).type = (dinode sb s.disk x).type
  nlink : (dinode sb s'.disk x).nlink = (dinode sb s.disk x).nlink
  keeps : ∀ y, y < sb.ninodes → y ≠ x → Keeps sb s.disk s'.disk y
  grown : ok = false → Grown sb s.disk s'.disk x
  refs : ∀ y, s'.ref y = s.ref y
  locked : s'.locked = s.locked
  valid : ∀ y, 0 < s.ref y → s'.valid y = s.valid y

/-- It changed neither the disk nor the fields in memory. -/
theorem Linking.of_same (hown : BlockOwnership sb s.disk) (hip : s.ip x = dinode sb s.disk x)
    (hdisk : s'.disk = s.disk) (hip' : s'.ip = s.ip) (hlocked : s'.locked = s.locked)
    (hrefs : ∀ y, s'.ref y = s.ref y) (hvalid : ∀ y, 0 < s.ref y → s'.valid y = s.valid y) :
    Linking sb x ok s s' where
  ownership := by rw [hdisk]; exact hown
  self := by rw [hdisk, hip', hip]
  ip := fun y _ ↦ by rw [hip']
  type := by rw [hdisk]
  nlink := by rw [hdisk]
  keeps := fun y _ _ ↦ by rw [hdisk]; exact Keeps.refl sb s.disk y
  grown := fun _ ↦ by rw [hdisk]; exact Grown.refl sb s.disk x
  refs := hrefs
  locked := hlocked
  valid := hvalid

theorem length_makeDirent (inum : Nat) (name : Name) :
    (makeDirent inum (strncpyFrom name 0 DIRSIZ)).length = DESIZE := by
  rw [makeDirent, List.length_cons, List.length_cons, length_strncpyFrom]
  rfl

theorem dirlink_linking (hown : BlockOwnership sb s.disk) (hx : x < sb.ninodes)
    (hip : s.ip x = dinode sb s.disk x) (ht : (dinode sb s.disk x).type ≠ 0)
    (heq : dirlink sb x name inum s = .ok (ok, s')) : Linking sb x ok s s' := by
  obtain ⟨⟨found, s₁⟩, hlook, hrest⟩ := bind_ok heq
  obtain ⟨-, hcases⟩ := dirlookup_cases hown hx hip ht hlook
  rcases hcases with ⟨rfl, rfl⟩ | ⟨y, rfl, hget, -⟩
  · obtain ⟨⟨off, dp, d⟩, hempty, hwrite⟩ := bind_ok hrest
    rw [hip] at hempty
    obtain ⟨rfl, rfl, hoff, hmod⟩ := emptyLoop_inside hown hx ht (j := 0) (Nat.zero_le _) hempty
    obtain ⟨⟨r, dp, d⟩, hwi, hend⟩ := bind_ok hwrite
    cases hend
    have hlen := length_makeDirent inum name
    by_cases hmax : off + DESIZE ≤ MAXFILE * BSIZE
    · have hfit : off % BSIZE + DESIZE ≤ BSIZE := by
        simp only [DESIZE, BSIZE] at *
        omega
      rw [← hlen] at hmax hfit
      obtain ⟨r', d', hwi', hr', hown', htype, hnlink, hkeeps, hgrown⟩ :=
        writei_one hown hx ht hoff hmax (by rw [hlen]; decide) hfit
      rw [hlen] at hwi' hr'
      rw [hwi'] at hwi
      cases hwi
      refine ⟨hown', Function.update_self _ _ _, fun y hy ↦ Function.update_of_ne hy _ _, htype,
        hnlink, hkeeps, ?_, fun _ ↦ rfl, rfl, fun _ _ ↦ rfl⟩
      intro hfail
      apply hgrown
      rcases hr' with hz | hall
      · exact hz
      · rw [hall, decide_eq_true rfl] at hfail
        cases hfail
    · -- the directory has its maximal size
      have hnone : writei sb x (dinode sb s₁.disk x)
          (fun k ↦ (makeDirent inum (strncpyFrom name 0 DIRSIZ))[k]?) off DESIZE s₁.disk =
          .ok (none, dinode sb s₁.disk x, s₁.disk) := by
        unfold writei
        split
        · rfl
        · exact if_pos (by omega)
      rw [hnone] at hwi
      cases hwi
      refine Linking.of_same hown hip rfl ?_ rfl (fun _ ↦ rfl) (fun _ _ ↦ rfl)
      rw [← hip]
      exact Function.update_eq_self _ _
  · obtain ⟨s₂, hput, hend⟩ := bind_ok hrest
    cases hend
    obtain ⟨hdisk, hip', hlocked, hrefs, hvalid⟩ := iget_iput hget hput
    exact Linking.of_same hown hip hdisk hip' hlocked hrefs hvalid

theorem Linking.uses (h : Linking sb x ok s s') (hu : Uses sb ref held locks s)
    (ht : (dinode sb s.disk x).type ≠ 0) : Uses sb ref held locks s' := by
  refine ⟨?_, ?_, ?_, ?_⟩
  · intro y
    rw [h.refs, hu.refs]
  · intro y
    rw [h.locked, hu.locked]
  · intro y hy
    rw [h.refs] at hy
    exact hu.inodes y hy
  · intro y hy hv
    rw [h.refs] at hy
    rw [h.valid y hy] at hv
    by_cases hyx : y = x
    · rw [hyx]
      exact ⟨h.self, by rw [h.type]; exact ht⟩
    · rw [h.ip y hyx, (h.keeps y (hu.inodes y hy) hyx).inode]
      exact hu.fields y hy hv

end Xv6.Sysfile
