import Mathlib.Data.Finset.Card
import Xv6.Fs.Filewrite

/-!
# How many blocks a write logs

`writei` and what it calls, with the blocks that are passed to `log_write` in the order of the
calls. A transaction has room for `MAXOPBLOCKS` of them, and `log_write` needs it once for each
block that is not in the log yet. Nothing is assumed about the free map.
-/

namespace Xv6.Fs.Quota

open Xv6.Lib

/-- `balloc` with its calls of `log_write`: for the block of the free map, and in `bzero`;
`kernel/fs.c:50–89`. -/
def balloc (sb : Super) (d : Disk) : (Nat × Disk) × List Nat :=
  match ballocScan sb d 0 ((sb.size + BPB - 1) / BPB) with
  | some b => ((b, bzero b (mark sb b d)), [sb.bblock b, b])
  | none => ((0, d), [])

/-- `bmap` for a direct block; `kernel/fs.c:388–396`. -/
def bmapDirect (sb : Super) (ip : Dinode) (k : Fin NDIRECT) (d : Disk) :
    (Nat × Dinode × Disk) × List Nat :=
  let addr := ip.addrs k.castSucc
  if addr = 0 then
    let ((addr, d), log) := balloc sb d
    if addr = 0 then ((0, ip, d), log) else ((addr, ip.setAddr k.castSucc addr, d), log)
  else ((addr, ip, d), [])

/-- The indirect block of an inode, allocated if necessary; `kernel/fs.c:401–406`. -/
def bmapIndirect (sb : Super) (ip : Dinode) (d : Disk) : (Nat × Dinode × Disk) × List Nat :=
  if ip.indirect = 0 then
    let ((addr, d), log) := balloc sb d
    if addr = 0 then ((0, ip, d), log) else ((addr, ip.setAddr (Fin.last NDIRECT) addr, d), log)
  else ((ip.indirect, ip, d), [])

/-- Entry `j` of the indirect block `ind`, allocated if necessary; `kernel/fs.c:407–417`. -/
def bmapEntry (sb : Super) (ind j : Nat) (d : Disk) : (Nat × Disk) × List Nat :=
  let addr := word (d ind) j
  if addr = 0 then
    let ((addr, d), log) := balloc sb d
    if addr = 0 then ((0, d), log)
    else ((addr, Function.update d ind (setWord (d ind) j addr)), log ++ [ind])
  else ((addr, d), [])

/-- `bmap`; `kernel/fs.c:382–421`. -/
def bmap (sb : Super) (ip : Dinode) (bn : Nat) (d : Disk) :
    Except String ((Nat × Dinode × Disk) × List Nat) :=
  if h : bn < NDIRECT then .ok (bmapDirect sb ip ⟨bn, h⟩ d)
  else if bn - NDIRECT < NINDIRECT then
    let ((ind, ip, d), log) := bmapIndirect sb ip d
    if ind = 0 then .ok ((0, ip, d), log)
    else
      let ((addr, d), log') := bmapEntry sb ind (bn - NDIRECT) d
      .ok ((addr, ip, d), log ++ log')
  else .error "bmap: out of range"

/-- The loop of `writei`; `kernel/fs.c:518–529`. -/
def writeLoop (sb : Super) (src : Nat → Option UInt8) (n : Nat) : Nat → Nat → Nat → Dinode → Disk →
    Except String ((Nat × Nat × Dinode × Disk) × List Nat)
  | 0, tot, off, ip, d => .ok ((tot, off, ip, d), [])
  | fuel + 1, tot, off, ip, d =>
    if tot < n then do
      let ((addr, ip, d), log) ← bmap sb ip (off / BSIZE) d
      if addr = 0 then return ((tot, off, ip, d), log)
      let m := min (n - tot) (BSIZE - off % BSIZE)
      let (xs, ok) := eitherCopyin src tot m
      let d := Function.update d addr (overlay (d addr) (off % BSIZE) xs)
      if ok then
        let (r, log') ← writeLoop sb src n fuel (tot + m) (off + m) ip d
        return (r, log ++ addr :: log')
      else return ((tot, off, ip, d), log)
    else .ok ((tot, off, ip, d), [])

/-- `writei`; the last call of `log_write` is that of `iupdate`; `kernel/fs.c:505–539`. -/
def writei (sb : Super) (i : Nat) (ip : Dinode) (src : Nat → Option UInt8) (off n : Nat)
    (d : Disk) : Except String ((Option Nat × Dinode × Disk) × List Nat) :=
  if off > ip.size ∨ (off + n) % 2 ^ 32 < off then .ok ((none, ip, d), [])
  else if off + n > MAXFILE * BSIZE then .ok ((none, ip, d), [])
  else do
    let ((tot, off, ip, d), log) ← writeLoop sb src n n 0 off ip d
    let ip := if off > ip.size then { ip with size := off } else ip
    return ((some tot, ip, iupdate sb i ip d), log ++ [sb.iblock i])

variable {sb : Super} {ip : Dinode} {d : Disk} {bn : Nat}

/-! ### Without the calls -/

theorem balloc_fst (sb : Super) (d : Disk) : (balloc sb d).1 = Fs.balloc sb d := by
  rw [balloc, Fs.balloc]
  cases ballocScan sb d 0 ((sb.size + BPB - 1) / BPB) with
  | none => rfl
  | some b => rfl

theorem bmapDirect_fst (k : Fin NDIRECT) : (bmapDirect sb ip k d).1 = Fs.bmapDirect sb ip k d := by
  rw [bmapDirect, Fs.bmapDirect, ← balloc_fst]
  dsimp only
  split
  · split <;> rfl
  · rfl

theorem bmapIndirect_fst : (bmapIndirect sb ip d).1 = Fs.bmapIndirect sb ip d := by
  rw [bmapIndirect, Fs.bmapIndirect, ← balloc_fst]
  split
  · dsimp only
    split <;> rfl
  · rfl

theorem bmapEntry_fst (ind j : Nat) : (bmapEntry sb ind j d).1 = Fs.bmapEntry sb ind j d := by
  rw [bmapEntry, Fs.bmapEntry, ← balloc_fst]
  dsimp only
  split
  · split <;> rfl
  · rfl

theorem bmap_map : (bmap sb ip bn d).map Prod.fst = Fs.bmap sb ip bn d := by
  rw [bmap, Fs.bmap, ← bmapIndirect_fst]
  split
  · exact congrArg Except.ok (bmapDirect_fst _)
  · split
    · dsimp only
      rw [← bmapEntry_fst]
      split <;> rfl
    · rfl

theorem writeLoop_map {src : Nat → Option UInt8} {n fuel tot off : Nat} :
    (writeLoop sb src n fuel tot off ip d).map Prod.fst =
      Fs.writeLoop sb src n fuel tot off ip d := by
  induction fuel generalizing tot off ip d with
  | zero => rfl
  | succ fuel ih =>
    rw [writeLoop, Fs.writeLoop, ← bmap_map]
    split
    · cases bmap sb ip (off / BSIZE) d with
      | error e => rfl
      | ok r =>
        obtain ⟨⟨addr, ip', d'⟩, log⟩ := r
        simp only [bind, Except.bind, Except.map]
        by_cases haddr : addr = 0
        · simp only [haddr, if_true]
          rfl
        · simp only [haddr, if_false]
          by_cases hok : (eitherCopyin src tot (min (n - tot) (BSIZE - off % BSIZE))).2 = true
          · simp only [hok, if_true, ← ih]
            cases writeLoop sb src n fuel _ _ ip' _ with
            | error e => rfl
            | ok r => rfl
          · simp only [hok]
            rfl
    · rfl

/-- `writei` does what it does without the record of its calls. -/
theorem writei_map {src : Nat → Option UInt8} {i off n : Nat} :
    (writei sb i ip src off n d).map Prod.fst = Fs.writei sb i ip src off n d := by
  rw [writei, Fs.writei, ← writeLoop_map]
  split
  · rfl
  · split
    · rfl
    · cases writeLoop sb src n n 0 off ip d with
      | error e => rfl
      | ok r => rfl

/-! ### One block of the file -/

/-- All blocks of the list are among `c` blocks. -/
def Within (c : Nat) (log : List Nat) : Prop := ∃ s : Finset Nat, s.card ≤ c ∧ ∀ b ∈ log, b ∈ s

theorem Within.cons {c : Nat} {log : List Nat} (h : Within c log) (b : Nat) :
    Within (c + 1) (b :: log) := by
  obtain ⟨s, hcard, hmem⟩ := h
  refine ⟨insert b s, ?_, ?_⟩
  · have := Finset.card_insert_le b s
    omega
  · intro x hx
    rcases List.mem_cons.mp hx with rfl | hx
    · exact Finset.mem_insert_self x s
    · exact Finset.mem_insert_of_mem (hmem x hx)

theorem Within.mono {c c' : Nat} {log log' : List Nat} (h : Within c log) (hc : c ≤ c')
    (hlog : ∀ b ∈ log', b ∈ log) : Within c' log' := by
  obtain ⟨s, hcard, hmem⟩ := h
  exact ⟨s, by omega, fun b hb ↦ hmem b (hlog b hb)⟩

theorem Within.card_le {c : Nat} {log : List Nat} (h : Within c log) : log.toFinset.card ≤ c := by
  obtain ⟨s, hcard, hmem⟩ := h
  refine le_trans (Finset.card_le_card ?_) hcard
  intro b hb
  exact hmem b (List.mem_toFinset.mp hb)

/-- The indirect block, if there is one. -/
def indirectBlock (ip : Dinode) : List Nat := if ip.indirect = 0 then [] else [ip.indirect]

/-- What the indirect block can add: itself, and the block of the free map for a new one. -/
def indirectRoom (ip : Dinode) : Nat := if ip.indirect = 0 then 2 else 1

theorem balloc_log (sb : Super) (d : Disk) :
    ∀ b ∈ (balloc sb d).2, b = sb.bblock (balloc sb d).1.1 ∨ b = (balloc sb d).1.1 := by
  rw [balloc]
  split
  · intro b hb
    simpa using hb
  · intro b hb
    cases hb

theorem Within.of_indirect (ip : Dinode) : Within (indirectRoom ip) (indirectBlock ip) := by
  have hnil : Within 0 [] := ⟨∅, le_refl _, fun b hb ↦ nomatch hb⟩
  rw [indirectRoom, indirectBlock]
  split
  · exact hnil.mono (by omega) (fun b hb ↦ hb)
  · exact hnil.cons ip.indirect

/-- A pointer that is not to the indirect block leaves that alone. -/
theorem indirect_setAddr (ip : Dinode) (k : Fin NDIRECT) (addr : Nat) :
    (ip.setAddr k.castSucc addr).indirect = ip.indirect :=
  Function.update_of_ne (Fin.castSucc_lt_last k).ne' _ _

theorem indirect_setAddr_last (ip : Dinode) (addr : Nat) :
    (ip.setAddr (Fin.last NDIRECT) addr).indirect = addr := by
  simp [Dinode.indirect, Dinode.setAddr]

/-- The calls `log` and a store to `addr` add at most two blocks, apart from the indirect block and
the block of the free map for it. -/
def Adds (ip : Dinode) (addr : Nat) (ip' : Dinode) (log : List Nat) : Prop :=
  ∀ c rest, Within (c + indirectRoom ip') (indirectBlock ip' ++ rest) →
    Within (c + 2 + indirectRoom ip) (indirectBlock ip ++ (log ++ addr :: rest))

theorem Adds.of_same {addr x : Nat} {ip' : Dinode} {log : List Nat}
    (hind : ip'.indirect = ip.indirect)
    (hlog : ∀ b ∈ log, b = x ∨ b = addr ∨ b ∈ indirectBlock ip) : Adds ip addr ip' log := by
  intro c rest h
  have hsame : indirectRoom ip' = indirectRoom ip ∧ indirectBlock ip' = indirectBlock ip := by
    rw [indirectRoom, indirectBlock, indirectRoom, indirectBlock, hind]
    exact ⟨rfl, rfl⟩
  rw [hsame.1, hsame.2] at h
  refine ((h.cons addr).cons x).mono (by omega) ?_
  intro b hb
  simp only [List.mem_append, List.mem_cons] at hb ⊢
  rcases hb with hb | hb | hb | hb
  · exact Or.inr (Or.inr (Or.inl hb))
  · rcases hlog b hb with hx | hx | hx
    · exact Or.inl hx
    · exact Or.inr (Or.inl hx)
    · exact Or.inr (Or.inr (Or.inl hx))
  · exact Or.inr (Or.inl hb)
  · exact Or.inr (Or.inr (Or.inr hb))

/-- With a new indirect block there are two more. -/
theorem Adds.of_new {addr x y : Nat} {ip' : Dinode} {log : List Nat} (hind : ip.indirect = 0)
    (hne : ip'.indirect ≠ 0) (hlog : ∀ b ∈ log, b = x ∨ b = y ∨ b = addr ∨ b = ip'.indirect) :
    Adds ip addr ip' log := by
  intro c rest h
  rw [indirectRoom, indirectBlock, if_neg hne, if_neg hne] at h
  rw [indirectRoom, indirectBlock, if_pos hind, if_pos hind]
  refine (((h.cons addr).cons y).cons x).mono (by omega) ?_
  intro b hb
  simp only [List.nil_append, List.mem_append, List.mem_cons, List.singleton_append] at hb ⊢
  rcases hb with hb | hb | hb
  · rcases hlog b hb with hx | hx | hx | hx
    · exact Or.inl hx
    · exact Or.inr (Or.inl hx)
    · exact Or.inr (Or.inr (Or.inl hx))
    · exact Or.inr (Or.inr (Or.inr (Or.inl hx)))
  · exact Or.inr (Or.inr (Or.inl hb))
  · exact Or.inr (Or.inr (Or.inr (Or.inr hb)))

theorem bmapDirect_adds (k : Fin NDIRECT) : Adds ip (bmapDirect sb ip k d).1.1
    (bmapDirect sb ip k d).1.2.1 (bmapDirect sb ip k d).2 := by
  have hlog := balloc_log sb d
  rw [bmapDirect]
  dsimp only
  split
  · split
    · next hzero =>
      rw [hzero] at hlog
      exact Adds.of_same rfl (fun b hb ↦ (hlog b hb).imp_right Or.inl)
    · exact Adds.of_same (indirect_setAddr ip k _) (fun b hb ↦ (hlog b hb).imp_right Or.inl)
  · exact Adds.of_same (x := 0) rfl (fun b hb ↦ nomatch hb)

/-- The entry of the indirect block that `bmap` returns. -/
theorem bmapEntry_log (ind j : Nat) : ∀ b ∈ (bmapEntry sb ind j d).2,
    b = sb.bblock (bmapEntry sb ind j d).1.1 ∨ b = (bmapEntry sb ind j d).1.1 ∨ b = ind := by
  have hlog := balloc_log sb d
  rw [bmapEntry]
  dsimp only
  split
  · split
    · next hzero =>
      rw [hzero] at hlog
      exact fun b hb ↦ (hlog b hb).imp_right Or.inl
    · intro b hb
      rcases List.mem_append.mp hb with hb | hb
      · exact (hlog b hb).imp_right Or.inl
      · exact Or.inr (Or.inr (List.mem_singleton.mp hb))
  · exact fun b hb ↦ nomatch hb

/-- `bmap` and a store to the block that it returns. -/
theorem bmap_adds (hbn : bn < MAXFILE) : ∃ addr ip' d' log,
    bmap sb ip bn d = .ok ((addr, ip', d'), log) ∧ Adds ip addr ip' log := by
  rw [bmap]
  by_cases hdirect : bn < NDIRECT
  · rw [dif_pos hdirect]
    exact ⟨_, _, _, _, rfl, bmapDirect_adds _⟩
  · have hin : bn - NDIRECT < NINDIRECT := by
      rw [MAXFILE] at hbn
      omega
    rw [dif_neg hdirect, if_pos hin, bmapIndirect]
    by_cases hind : ip.indirect = 0
    · -- the indirect block is new
      have hlog := balloc_log sb d
      simp only [if_pos hind]
      by_cases hzero : (balloc sb d).1.1 = 0
      · rw [hzero] at hlog
        simp only [hzero, if_true]
        exact ⟨0, ip, _, _, rfl, Adds.of_same rfl (fun b hb ↦ (hlog b hb).imp_right Or.inl)⟩
      · simp only [if_neg hzero]
        have hentry :
            ∀ b ∈ (bmapEntry sb (balloc sb d).1.1 (bn - NDIRECT) (balloc sb d).1.2).2, _ :=
          bmapEntry_log (balloc sb d).1.1 (bn - NDIRECT)
        have hnew := indirect_setAddr_last ip (balloc sb d).1.1
        generalize bmapEntry sb (balloc sb d).1.1 (bn - NDIRECT) (balloc sb d).1.2 = e at hentry ⊢
        refine ⟨_, _, _, _, rfl, Adds.of_new hind (by rw [hnew]; exact hzero)
          (x := sb.bblock (balloc sb d).1.1) (y := sb.bblock e.1.1) ?_⟩
        intro b hb
        rw [hnew]
        rcases List.mem_append.mp hb with hb | hb
        · rcases hlog b hb with hx | hx
          · exact Or.inl hx
          · exact Or.inr (Or.inr (Or.inr hx))
        · exact Or.inr (hentry b hb)
    · have hentry : ∀ b ∈ (bmapEntry sb ip.indirect (bn - NDIRECT) d).2, _ :=
        bmapEntry_log ip.indirect (bn - NDIRECT)
      have hblock (b : Nat) : b = ip.indirect ↔ b ∈ indirectBlock ip := by
        rw [indirectBlock, if_neg hind, List.mem_singleton]
      simp only [hblock] at hentry
      simp only [if_neg hind, List.nil_append]
      exact ⟨_, _, _, _, rfl, Adds.of_same rfl hentry⟩

/-! ### The whole write -/

/-- The loop of `writei`, when what is left to write is in `blocks` blocks of the file. -/
theorem writeLoop_within {src : Nat → Option UInt8} {n fuel tot off blocks : Nat}
    (hmax : off + (n - tot) ≤ MAXFILE * BSIZE)
    (hspan : tot < n → off % BSIZE + (n - tot) ≤ blocks * BSIZE) :
    ∃ r log, writeLoop sb src n fuel tot off ip d = .ok (r, log) ∧
      Within (2 * blocks + indirectRoom ip) (indirectBlock ip ++ log) := by
  induction fuel generalizing tot off blocks ip d with
  | zero =>
    refine ⟨_, [], rfl, (Within.of_indirect ip).mono (by omega) ?_⟩
    intro b hb
    rwa [List.append_nil] at hb
  | succ fuel ih =>
    rw [writeLoop]
    by_cases hlt : tot < n
    · have hB : BSIZE = 1024 := rfl
      have hspan := hspan hlt
      have hbn : off / BSIZE < MAXFILE := by
        rw [hB] at hmax ⊢
        omega
      obtain ⟨addr, ip', d', log, hmap, hadds⟩ : ∃ addr ip' d' log,
          bmap sb ip (off / BSIZE) d = .ok ((addr, ip', d'), log) ∧ Adds ip addr ip' log :=
          bmap_adds hbn
      obtain ⟨blocks, rfl⟩ : ∃ k, blocks = k + 1 := by
        refine ⟨blocks - 1, ?_⟩
        rw [hB] at hspan
        omega
      -- a loop that ends here has logged less than one that goes on
      have hend : Within (2 * (blocks + 1) + indirectRoom ip) (indirectBlock ip ++ log) := by
        have hlast := hadds (2 * blocks) [] ((Within.of_indirect ip').mono (by omega) (by simp))
        refine hlast.mono (by omega) ?_
        intro b hb
        rw [← List.append_assoc]
        exact List.mem_append_left _ hb
      rw [if_pos hlt, hmap]
      simp only [bind, Except.bind]
      by_cases haddr : addr = 0
      · rw [if_pos haddr]
        exact ⟨_, log, rfl, hend⟩
      · rw [if_neg haddr]
        generalize hm : min (n - tot) (BSIZE - off % BSIZE) = m
        split
        · rw [hB] at hmax hspan hm
          have hmax' : off + m + (n - (tot + m)) ≤ MAXFILE * BSIZE := by
            rw [hB]
            omega
          have hspan' : tot + m < n → (off + m) % BSIZE + (n - (tot + m)) ≤ blocks * BSIZE := by
            rw [hB]
            omega
          obtain ⟨r, log', hrest, hwithin⟩ := ih hmax' hspan'
          rw [hrest]
          exact ⟨r, log ++ addr :: log', rfl, (hadds _ _ hwithin).mono (by omega) (fun b hb ↦ hb)⟩
        · exact ⟨_, log, rfl, hend⟩
    · rw [if_neg hlt]
      refine ⟨_, [], rfl, (Within.of_indirect ip).mono (by omega) ?_⟩
      intro b hb
      rwa [List.append_nil] at hb

/-- A block that is there costs nothing. -/
theorem bmap_of_lookup (h : lookup d ip bn ≠ 0) :
    bmap sb ip bn d = .ok ((lookup d ip bn, ip, d), []) := by
  rw [lookup] at h ⊢
  rw [bmap]
  split at h
  · next hdirect =>
    rw [dif_pos hdirect, dif_pos hdirect, bmapDirect]
    simp only [if_neg h]
  · next hdirect =>
    rw [dif_neg hdirect, dif_neg hdirect]
    split at h
    · next hin =>
      rw [if_pos hin.1, if_pos hin, bmapIndirect]
      simp only [if_neg hin.2, bmapEntry, if_neg h]
      rfl
    · exact absurd rfl h

/-- With a first block that is there, the loop may go over one block more. -/
theorem writeLoop_first {src : Nat → Option UInt8} {n off : Nat} (hmax : off + n ≤ MAXFILE * BSIZE)
    (hfirst : lookup d ip (off / BSIZE) ≠ 0) (hn : n ≤ 3 * BSIZE) :
    ∃ r log, writeLoop sb src n n 0 off ip d = .ok (r, log) ∧ Within 9 log := by
  have hB : BSIZE = 1024 := rfl
  have hroom : indirectRoom ip ≤ 2 := by
    rw [indirectRoom]
    split <;> omega
  cases n with
  | zero => exact ⟨_, [], rfl, ∅, by decide, fun b hb ↦ nomatch hb⟩
  | succ n =>
    rw [writeLoop, if_pos (by omega), bmap_of_lookup hfirst]
    simp only [bind, Except.bind, if_neg hfirst, List.nil_append]
    generalize hm : min (n + 1 - 0) (BSIZE - off % BSIZE) = m
    split
    · rw [hB] at hmax hn hm
      have hmax' : off + m + (n + 1 - (0 + m)) ≤ MAXFILE * BSIZE := by
        rw [hB]
        omega
      have hspan' : 0 + m < n + 1 → (off + m) % BSIZE + (n + 1 - (0 + m)) ≤ 3 * BSIZE := by
        rw [hB]
        omega
      obtain ⟨r, log, hrest, hwithin⟩ : ∃ r log, writeLoop sb src (n + 1) n (0 + m) (off + m) ip _ =
          .ok (r, log) ∧ Within (2 * 3 + indirectRoom ip) (indirectBlock ip ++ log) :=
        writeLoop_within hmax' hspan'
      rw [hrest]
      refine ⟨r, lookup d ip (off / BSIZE) :: log, rfl, ?_⟩
      have hlog : Within 8 log := hwithin.mono (by omega) (fun b hb ↦ List.mem_append_right _ hb)
      exact hlog.cons _
    · exact ⟨_, [], rfl, ∅, by decide, fun b hb ↦ nomatch hb⟩

/-- A chunk of `filewrite` logs at most `MAXOPBLOCKS` blocks, also if it fails half-way. -/
theorem writei_logs_at_most {src : Nat → Option UInt8} {i off n : Nat}
    (hfill : ∀ k, k * BSIZE < ip.size → lookup d ip k ≠ 0) (hoff : off ≤ ip.size)
    (hn : n ≤ maxChunk) :
    ∃ r log, writei sb i ip src off n d = .ok (r, log) ∧ log.toFinset.card ≤ MAXOPBLOCKS := by
  have hB : BSIZE = 1024 := rfl
  have hchunk : n ≤ 3 * BSIZE := hn
  rw [writei]
  split
  · exact ⟨_, [], rfl, by decide⟩
  · split
    · exact ⟨_, [], rfl, by decide⟩
    · next hmax =>
      have hloop : ∃ r log, writeLoop sb src n n 0 off ip d = .ok (r, log) ∧ Within 9 log := by
        by_cases halign : off % BSIZE = 0
        · obtain ⟨r, log, hlog, hwithin⟩ : ∃ r log, writeLoop sb src n n 0 off ip d = .ok (r, log) ∧
              Within (2 * 3 + indirectRoom ip) (indirectBlock ip ++ log) :=
            writeLoop_within (by omega) (by omega)
          refine ⟨r, log, hlog, hwithin.mono ?_ (fun b hb ↦ List.mem_append_right _ hb)⟩
          rw [indirectRoom]
          split <;> omega
        · apply writeLoop_first (by omega) _ hchunk
          -- an offset inside a block is below the size, or at its end in the same block
          apply hfill
          rw [hB] at halign ⊢
          omega
      obtain ⟨⟨tot, off', ip', d'⟩, log, hlog, hwithin⟩ := hloop
      rw [hlog]
      refine ⟨_, log ++ [sb.iblock i], rfl, ?_⟩
      have hall : Within 10 (sb.iblock i :: log) := hwithin.cons _
      apply Within.card_le
      apply hall.mono (le_refl _)
      intro b hb
      rw [List.mem_append, List.mem_singleton] at hb
      rcases hb with hb | rfl
      · exact List.mem_cons_of_mem _ hb
      · exact List.mem_cons_self

/-- A file of 100 bytes, all of whose direct blocks are there. -/
def shortFile : Dinode where
  type := 2
  major := 0
  minor := 0
  nlink := 1
  size := 100
  addrs := fun k ↦ if k.val < NDIRECT then 5 + k else 0

/-- Appending a chunk to it. -/
theorem writei_logs_at_most_append :
    (∀ k, k * BSIZE < shortFile.size → lookup tinyDisk shortFile k ≠ 0) ∧
      ∃ r log, writei tinySuper 1 shortFile (fun _ ↦ some 7) 100 maxChunk tinyDisk = .ok (r, log) ∧
        log.toFinset.card ≤ MAXOPBLOCKS := by
  have hfill : ∀ k, k * BSIZE < shortFile.size → lookup tinyDisk shortFile k ≠ 0 := by
    intro k hk
    have hB : BSIZE = 1024 := rfl
    have hsize : shortFile.size = 100 := rfl
    rw [hB, hsize] at hk
    rw [show k = 0 by omega]
    decide
  exact ⟨hfill, writei_logs_at_most hfill (by decide) (le_refl _)⟩

end Xv6.Fs.Quota
