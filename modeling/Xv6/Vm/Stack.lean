import Xv6.Vm.Program

/-!
# The stack of a new program

`exec` puts the argument strings and an array of pointers to them on the one stack page of the new
image (`kernel/exec.c:75–131`). The strings go from the top of the page downwards, each at a
multiple of 16, and the array lies below them.
-/

namespace Xv6.Vm

open Xv6.Lib

/-- `n` rounded up to a multiple of 16. -/
def align16 (n : Nat) : Nat := (n + 15) / 16 * 16

/-- The room that strings with their NULs take on the stack. -/
def room (args : List (List UInt8)) : Nat := (args.map (fun s ↦ align16 (s.length + 1))).sum

/-- The room of the array of pointers, with the null at its end. -/
def arrayRoom (argc : Nat) : Nat := align16 ((argc + 1) * 8)

/-- Strings and the array fit in the stack page. -/
def StackFits (args : List (List UInt8)) : Prop := room args + arrayRoom args.length ≤ PGSIZE

instance (args : List (List UInt8)) : Decidable (StackFits args) :=
  inferInstanceAs (Decidable (room args + arrayRoom args.length ≤ PGSIZE))

/-- Where the strings lie below `sp`. -/
def placeArgs (sp : Nat) : List (List UInt8) → List (Nat × List UInt8)
  | [] => []
  | s :: args => (sp - align16 (s.length + 1), s) :: placeArgs (sp - align16 (s.length + 1)) args

/-- The image `E` with strings and their NULs. -/
def laid (E : Nat → UInt8) : List (Nat × List UInt8) → Nat → UInt8
  | [] => E
  | p :: ps => laid (overlay E p.1 (p.2 ++ [0])) ps

section
variable {k : Kernel} {m m' : Mem} {pt n : Nat} {top : Nat → Nat} {E : Nat → UInt8}

/-! ### The stack pointer -/

theorem align16_ge (n : Nat) : n ≤ align16 n := by
  unfold align16
  omega

theorem align16_mod (n : Nat) : align16 n % 16 = 0 := by
  unfold align16
  omega

/-- The stack pointer does not wrap around. -/
theorem pushSp_eq {sp n : Nat} (hsp : sp % 16 = 0) (hlt : sp < 2 ^ 64) (hn : n ≤ sp) :
    align16 n ≤ sp ∧ pushSp sp n = sp - align16 n := by
  have hsub : sub64 sp n = sp - n := by
    unfold sub64
    omega
  rw [pushSp, hsub]
  unfold align16
  omega

theorem room_nil : room [] = 0 := rfl

theorem room_cons (s : List UInt8) (args : List (List UInt8)) :
    room (s :: args) = align16 (s.length + 1) + room args := by
  rw [room, List.map_cons, List.sum_cons]
  rfl

theorem room_mod (args : List (List UInt8)) : room args % 16 = 0 := by
  induction args with
  | nil => rfl
  | cons s args ih =>
    have := align16_mod (s.length + 1)
    rw [room_cons]
    omega

/-! ### Strings that are laid down -/

theorem laid_congr {E' : Nat → UInt8} {va : Nat} (h : E va = E' va) (ps : List (Nat × List UInt8)) :
    laid E ps va = laid E' ps va := by
  induction ps generalizing E E' with
  | nil => exact h
  | cons p ps ih => exact ih (overlay_congr h _ _)

theorem mem_placeArgs {sp : Nat} {args : List (List UInt8)} {p : Nat × List UInt8}
    (hp : p ∈ placeArgs sp args) (hroom : room args ≤ sp) :
    sp - room args ≤ p.1 ∧ p.1 + (p.2.length + 1) ≤ sp := by
  induction args generalizing sp with
  | nil => cases hp
  | cons s args ih =>
    have hge := align16_ge (s.length + 1)
    rw [room_cons] at hroom ⊢
    rw [placeArgs, List.mem_cons] at hp
    rcases hp with rfl | hp
    · dsimp only
      omega
    · have := ih hp (by omega)
      omega

/-- No string is laid at `sp` or above. -/
theorem laid_above {sp va : Nat} {args : List (List UInt8)} (hroom : room args ≤ sp)
    (hva : sp ≤ va) :
    laid E (placeArgs sp args) va = E va := by
  induction args generalizing E sp with
  | nil => rfl
  | cons s args ih =>
    have hge := align16_ge (s.length + 1)
    rw [room_cons] at hroom
    rw [placeArgs, laid, ih (by omega) (by omega), overlay, if_neg]
    dsimp only
    rw [List.length_append, List.length_singleton]
    omega

/-- Each string can be read where it was laid. -/
theorem laid_string {sp : Nat} {args : List (List UInt8)} (hroom : room args ≤ sp)
    {p : Nat × List UInt8} (hp : p ∈ placeArgs sp args) {j : Nat} (hj : j < p.2.length + 1) :
    laid E (placeArgs sp args) (p.1 + j) = (p.2 ++ [0]).getD j 0 := by
  induction args generalizing E sp with
  | nil => cases hp
  | cons s args ih =>
    rw [room_cons] at hroom
    rw [placeArgs, List.mem_cons] at hp
    rw [placeArgs, laid]
    rcases hp with rfl | hp
    · dsimp only at hj ⊢
      rw [laid_above (by omega) (by omega), overlay, if_pos, Nat.add_sub_cancel_left]
      rw [List.length_append, List.length_singleton]
      omega
    · exact ih (by omega) hp

/-- The strings lie one below the other. -/
theorem placeArgs_pairwise {sp : Nat} {args : List (List UInt8)} (hroom : room args ≤ sp) :
    (placeArgs sp args).Pairwise (fun p q ↦ q.1 + (q.2.length + 1) ≤ p.1) := by
  induction args generalizing sp with
  | nil => exact List.Pairwise.nil
  | cons s args ih =>
    rw [room_cons] at hroom
    rw [placeArgs]
    refine List.Pairwise.cons ?_ (ih (by omega))
    intro q hq
    exact (mem_placeArgs hq (by omega)).2

theorem placeArgs_strings (sp : Nat) (args : List (List UInt8)) :
    (placeArgs sp args).map Prod.snd = args := by
  induction args generalizing sp with
  | nil => rfl
  | cons s args ih => rw [placeArgs, List.map_cons, ih]

theorem placeArgs_length (sp : Nat) (args : List (List UInt8)) :
    (placeArgs sp args).length = args.length := by
  have h := congrArg List.length (placeArgs_strings sp args)
  rw [List.length_map] at h
  exact h

/-! ### `copyout` within a page -/

theorem copyoutLoop_nil (pt fuel : Nat) (m : Mem) (dstva : Nat) :
    copyoutLoop pt fuel m dstva [] = (true, m) := by
  cases fuel with
  | zero => rfl
  | succ fuel => rw [copyoutLoop, if_pos rfl]

/-- `copyout` of bytes that lie in one page of the user. -/
theorem copyout_page {v sp : Nat} {src : List UInt8} (h : Layout m.cells pt n top)
    (hs : Sound k m (space m.cells pt n)) (hv : v < n) (hu : entry m.cells 2 pt v &&& PTE_U ≠ 0)
    (hsrc : src ≠ []) (hlo : v * PGSIZE ≤ sp) (hhi : sp + src.length ≤ (v + 1) * PGSIZE) :
    copyout m pt sp src =
      (true, m.write (PTE2PA (entry m.cells 2 pt v)) (sp - v * PGSIZE) src) := by
  have hN : NPAGES = TOP + 2 := rfl
  have hsize := h.size
  have hpos : 0 < src.length := List.length_pos_iff.mpr hsrc
  have hdiv : sp / PGSIZE = v := by
    rw [Nat.add_mul, Nat.one_mul] at hhi
    rw [Nat.div_eq_iff (by decide)]
    omega
  have hmod : sp % PGSIZE = sp - v * PGSIZE := by
    have := Nat.div_add_mod sp PGSIZE
    rw [hdiv, Nat.mul_comm] at this
    omega
  have hwalk : walkaddr m pt sp = PTE2PA (entry m.cells 2 pt v) := by
    rw [walkaddr_eq, userPage_eq, hdiv, if_pos ⟨by omega, (h.leaf v hv).1, hu⟩]
    rfl
  have hnull : PTE2PA (entry m.cells 2 pt v) ≠ 0 := by
    apply hs.ne_zero
    have := users_pos m.cells pt hv
    rw [space, Pi.add_apply]
    omega
  have hmin : min (PGSIZE - (sp - v * PGSIZE)) src.length = src.length := by
    rw [Nat.add_mul, Nat.one_mul] at hhi
    omega
  obtain ⟨fuel, hfuel⟩ := Nat.exists_eq_succ_of_ne_zero (Nat.ne_of_gt hpos)
  rw [copyout, hfuel, Nat.succ_eq_add_one, copyoutLoop, if_neg hsrc]
  dsimp only
  rw [walkaddr_page, hwalk, if_neg hnull, sub_page, hmod, hmin, List.take_length, List.drop_length,
    copyoutLoop_nil]

/-! ### Pushing the strings -/

theorem cstring_congr {m' : Mem} {page : Nat} (h : m'.cells page = m.cells page) :
    cstring m' page = cstring m page := by
  unfold cstring Mem.read
  rw [h]

/-- Strings were stored in the image, and nothing else has changed. -/
structure LaidDown (m m' : Mem) (pt n : Nat) (top : Nat → Nat) (ps : List (Nat × List UInt8)) :
    Prop where
  resized : Resized m m' pt n n top 0
  bytes : ∀ va < n * PGSIZE, image m'.cells pt va = laid (image m.cells pt) ps va

theorem LaidDown.nil (h : Layout m.cells pt n top) : LaidDown m m pt n top [] :=
  ⟨Resized.refl h 0, fun _ _ ↦ rfl⟩

theorem LaidDown.cons {m₁ : Mem} {p : Nat × List UInt8} {ps : List (Nat × List UInt8)}
    (hr : Resized m m₁ pt n n top 0)
    (hb : ∀ va < n * PGSIZE, image m₁.cells pt va = overlay (image m.cells pt) p.1 (p.2 ++ [0]) va)
    (h : LaidDown m₁ m' pt n top ps) : LaidDown m m' pt n top (p :: ps) := by
  refine ⟨hr.trans h.resized (Or.inl (Nat.le_refl n)), ?_⟩
  intro va hva
  rw [h.bytes va hva, laid]
  exact laid_congr (hb va hva) ps

/-- A store of bytes in the stack page `v`. -/
structure PageStore (m m' : Mem) (pt n : Nat) (top : Nat → Nat) (sp : Nat) (src : List UInt8) :
    Prop where
  resized : Resized m m' pt n n top 0
  bytes : ∀ va < n * PGSIZE, image m'.cells pt va = overlay (image m.cells pt) sp src va
  others : ∀ q, space m.cells pt n q = 0 → m'.cells q = m.cells q

theorem copyout_stored {v : Nat} (sp : Nat) (src : List UInt8) (h : Layout m.cells pt n top)
    (hs : Sound k m (space m.cells pt n)) (hv : v < n) (hu : entry m.cells 2 pt v &&& PTE_U ≠ 0)
    (hsrc : src ≠ []) (hlo : v * PGSIZE ≤ sp) (hhi : sp + src.length ≤ (v + 1) * PGSIZE) :
    ∃ m', copyout m pt sp src = (true, m') ∧ PageStore m m' pt n top sp src := by
  refine ⟨_, copyout_page h hs hv hu hsrc hlo hhi, Resized.write h hs hv _ _ 0, ?_, ?_⟩
  · intro va hva
    rw [Nat.add_mul, Nat.one_mul] at hhi
    rw [image_write hs hv (by omega) hva, Nat.add_sub_cancel' hlo]
  · intro q hq
    apply write_other
    rintro rfl
    have := users_pos m.cells pt hv
    rw [space, Pi.add_apply] at hq
    omega

theorem stack_lt {v : Nat} (h : Layout m.cells pt n top) (hv : v < n) :
    (v + 1) * PGSIZE < 2 ^ 38 := by
  have hT := TOP_mul
  have hsize := h.size
  have hmul := Nat.mul_le_mul_right PGSIZE (show v + 1 ≤ TOP by omega)
  omega

/-- The loop over the arguments succeeds if the strings fit, and lays them down. -/
theorem pushArgs_spec {v sp : Nat} {argv ustack : List Nat} (h : Layout m.cells pt n top)
    (hs : Sound k m (space m.cells pt n + argPages argv)) (hv : v < n) (hvpos : 0 < v)
    (hu : entry m.cells 2 pt v &&& PTE_U ≠ 0) (hlen : ustack.length + argv.length ≤ MAXARG)
    (hstr : ∀ a ∈ argv, (cstring m a).length < PGSIZE) (hsp : sp % 16 = 0) (hlo : v * PGSIZE ≤ sp)
    (hhi : sp ≤ (v + 1) * PGSIZE) :
    if v * PGSIZE + room (argv.map (cstring m)) ≤ sp then
      ∃ m', pushArgs pt (v * PGSIZE) argv m sp ustack =
        (some (sp - room (argv.map (cstring m)),
          ustack ++ (placeArgs sp (argv.map (cstring m))).map Prod.fst), m') ∧
        LaidDown m m' pt n top (placeArgs sp (argv.map (cstring m)))
    else (pushArgs pt (v * PGSIZE) argv m sp ustack).1 = none := by
  induction argv generalizing m sp ustack with
  | nil =>
    rw [List.map_nil, room_nil, Nat.add_zero, if_pos hlo]
    refine ⟨m, ?_, LaidDown.nil h⟩
    rw [pushArgs, placeArgs, List.map_nil, List.append_nil, Nat.sub_zero]
  | cons arg argv ih =>
    have hbound := stack_lt h hv
    have hpage : PGSIZE ≤ v * PGSIZE := Nat.le_mul_of_pos_left _ hvpos
    have hs' := hstr arg List.mem_cons_self
    obtain ⟨hale, hpush⟩ := pushSp_eq (n := (cstring m arg).length + 1) hsp (by omega) (by omega)
    have hge := align16_ge ((cstring m arg).length + 1)
    have hmod := align16_mod ((cstring m arg).length + 1)
    rw [List.length_cons] at hlen
    have hmax : ¬ MAXARG ≤ ustack.length := by omega
    rw [List.map_cons, room_cons, pushArgs, if_neg hmax]
    dsimp only
    rw [hpush]
    by_cases hfit : sp - align16 ((cstring m arg).length + 1) < v * PGSIZE
    · have hno : ¬ v * PGSIZE + (align16 ((cstring m arg).length + 1) +
          room (argv.map (cstring m))) ≤ sp := by omega
      rw [if_pos hfit, if_neg hno]
    · have hout := copyout_stored (sp - align16 ((cstring m arg).length + 1))
        (cstring m arg ++ [0]) h hs.left hv hu (by simp) (by omega)
        (by rw [List.length_append, List.length_singleton]; omega)
      obtain ⟨m₁, hm₁, hst⟩ := hout
      rw [if_neg hfit, hm₁]
      dsimp only
      -- the pages of the other arguments are not those of the image
      have hs₁ : Sound k m (space m.cells pt n + argPages argv) := by
        apply hs.mono
        intro q
        rw [argPages_cons]
        simp only [Pi.add_apply]
        omega
      have harg {a : Nat} (ha : a ∈ argv) : cstring m₁ a = cstring m a := by
        apply cstring_congr
        apply hst.others
        apply hs₁.disjoint
        exact List.count_pos_iff.mpr ha
      have hmap : argv.map (cstring m₁) = argv.map (cstring m) :=
        List.map_congr_left (fun a ha ↦ harg ha)
      have hu₁ : entry m₁.cells 2 pt v &&& PTE_U ≠ 0 := by
        rw [hst.resized.kept v hv hv]
        exact hu
      have hrest := @ih m₁ (sp - align16 ((cstring m arg).length + 1))
        (ustack ++ [sp - align16 ((cstring m arg).length + 1)]) hst.resized.layout
        (hs₁.moves (hst.resized.moves.add _)) hu₁
        (by rw [List.length_append, List.length_singleton]; omega)
        (fun a ha ↦ by rw [harg ha]; exact hstr a (List.mem_cons_of_mem _ ha))
        (by omega) (by omega) (by omega)
      rw [hmap] at hrest
      by_cases hall :
        v * PGSIZE + (align16 ((cstring m arg).length + 1) + room (argv.map (cstring m))) ≤ sp
      · rw [if_pos hall]
        rw [if_pos (by omega)] at hrest
        obtain ⟨m', heq, hlaid⟩ := hrest
        refine ⟨m', ?_, LaidDown.cons hst.resized hst.bytes hlaid⟩
        rw [heq, placeArgs, List.map_cons, List.append_assoc, List.singleton_append, Nat.sub_sub]
      · rw [if_neg hall]
        rw [if_neg (by omega)] at hrest
        exact hrest

/-! ### The array of pointers -/

theorem words_cons (w : Nat) (ws : List Nat) :
    words (w :: ws) = (List.range 8).map (fun i ↦ UInt8.ofNat (w / 256 ^ i)) ++ words ws := rfl

theorem words_length (ws : List Nat) : (words ws).length = 8 * ws.length := by
  induction ws with
  | nil => rfl
  | cons w ws ih =>
    rw [words_cons, List.length_append, List.length_map, List.length_range, ih, List.length_cons]
    omega

theorem overlay_word (E : Nat → UInt8) (sp w : Nat) :
    overlay E sp ((List.range 8).map (fun i ↦ UInt8.ofNat (w / 256 ^ i))) = writeLE E sp 8 w := by
  funext va
  rw [overlay, writeLE, List.length_map, List.length_range]
  split
  · next hin =>
    have hlt : va - sp < 8 := by omega
    rw [List.getD_eq_getElem?_getD, List.getElem?_map, List.getElem?_range hlt]
    rfl
  · rfl

/-- The bytes of the array are those of its words. -/
theorem overlay_words (E : Nat → UInt8) (sp : Nat) (ws : List Nat) :
    overlay E sp (words ws) = writeWords E 8 sp ws := by
  induction ws generalizing E sp with
  | nil => exact overlay_nil E sp
  | cons w ws ih =>
    have happ :=
      overlay_append E sp ((List.range 8).map (fun i ↦ UInt8.ofNat (w / 256 ^ i))) (words ws)
    rw [List.length_map, List.length_range, overlay_word] at happ
    rw [words_cons, ← happ, ih, writeWords]

/-- The arguments of a program on its stack page `[base, top)`, with the address of each string. -/
structure ArgStack (img : Nat → UInt8) (base top : Nat) (args : List (List UInt8))
    (ps : List (Nat × List UInt8)) (sp : Nat) : Prop where
  args_eq : ps.map Prod.snd = args
  aligned : sp % 16 = 0
  base : base ≤ sp
  array : sp + 8 * (args.length + 1) ≤ top
  above : ∀ p ∈ ps, sp + 8 * (args.length + 1) ≤ p.1 ∧ p.1 + (p.2.length + 1) ≤ top
  apart : ps.Pairwise (fun p q ↦ q.1 + (q.2.length + 1) ≤ p.1)
  strings : ∀ p ∈ ps, ∀ j < p.2.length + 1, img (p.1 + j) = (p.2 ++ [0]).getD j 0
  pointers : readWords img 8 sp (args.length + 1) = ps.map Prod.fst ++ [0]

theorem ArgStack.congr {img img' : Nat → UInt8} {base top sp : Nat} {args : List (List UInt8)}
    {ps : List (Nat × List UInt8)} (h : ArgStack img base top args ps sp)
    (heq : ∀ va < top, img' va = img va) : ArgStack img' base top args ps sp := by
  have harray := h.array
  refine ⟨h.args_eq, h.aligned, h.base, harray, h.above, h.apart, ?_, ?_⟩
  · intro p hp j hj
    have := (h.above p hp).2
    rw [heq _ (by omega)]
    exact h.strings p hp j hj
  · rw [← h.pointers]
    apply readWords_congr
    intro i _ hi
    exact heq i (by omega)

/-- The stack pointer that the program starts with. -/
def stackSp (top : Nat) (args : List (List UInt8)) : Nat := top - room args - arrayRoom args.length

/-- The strings and then the array make the stack. -/
theorem argStack_of_stores {m₁ : Mem} {v : Nat} {args : List (List UInt8)} (hv : v < n)
    (h : Layout m.cells pt n top) (hfits : StackFits args)
    (hlaid : LaidDown m m₁ pt n top (placeArgs ((v + 1) * PGSIZE) args))
    (hst : PageStore m₁ m' pt n top (stackSp ((v + 1) * PGSIZE) args)
      (words ((placeArgs ((v + 1) * PGSIZE) args).map Prod.fst ++ [0]))) :
    ArgStack (image m'.cells pt) (v * PGSIZE) ((v + 1) * PGSIZE) args
      (placeArgs ((v + 1) * PGSIZE) args) (stackSp ((v + 1) * PGSIZE) args) := by
  have hbound := stack_lt h hv
  have hmul : (v + 1) * PGSIZE ≤ n * PGSIZE := Nat.mul_le_mul_right _ hv
  have hroom := room_mod args
  have harray := align16_mod ((args.length + 1) * 8)
  have hge := align16_ge ((args.length + 1) * 8)
  have hpage : (v + 1) * PGSIZE % 16 = 0 := by
    unfold PGSIZE
    omega
  have hsum : (v + 1) * PGSIZE = v * PGSIZE + PGSIZE := Nat.succ_mul v PGSIZE
  have hplace {p : Nat × List UInt8} (hp : p ∈ placeArgs ((v + 1) * PGSIZE) args) :=
    mem_placeArgs hp (show room args ≤ (v + 1) * PGSIZE by unfold StackFits at hfits; omega)
  unfold StackFits arrayRoom at hfits
  generalize hsp : stackSp ((v + 1) * PGSIZE) args = sp at *
  rw [stackSp, arrayRoom] at hsp
  generalize (v + 1) * PGSIZE = T at *
  have hlen : ((placeArgs T args).map Prod.fst ++ [0]).length = args.length + 1 := by
    rw [List.length_append, List.length_map, placeArgs_length, List.length_singleton]
  have hwords :
      (words ((placeArgs T args).map Prod.fst ++ [0])).length = 8 * (args.length + 1) := by
    rw [words_length, hlen]
  refine ⟨placeArgs_strings T args, by omega, by omega, by omega, ?_, placeArgs_pairwise (by omega),
    ?_, ?_⟩
  · intro p hp
    have := hplace hp
    omega
  · intro p hp j hj
    have := hplace hp
    rw [hst.bytes _ (by omega), overlay, if_neg (by omega), hlaid.bytes _ (by omega)]
    exact laid_string (by omega) hp hj
  · have hlt : ∀ w ∈ (placeArgs T args).map Prod.fst ++ [0], w < 256 ^ 8 := by
      have hpow : 256 ^ 8 = 2 ^ 64 := by decide
      rw [hpow]
      intro w hw
      rw [List.mem_append, List.mem_map, List.mem_singleton] at hw
      rcases hw with ⟨p, hp, rfl⟩ | rfl
      · have := hplace hp
        omega
      · omega
    have hread := readWords_writeWords (image m₁.cells pt) sp hlt
    rw [hlen] at hread
    rw [← hread]
    apply readWords_congr
    intro i _ hi
    rw [hst.bytes i (by omega), overlay_words]

/-- The subtractions of `exec` are exact: after the strings that fit in `[base, top)`, the stack
pointer is large enough for the next string, or for the array. -/
structure NoWrap (base top : Nat) (args : List (List UInt8)) : Prop where
  string : ∀ pre s post, args = pre ++ s :: post → base + room pre ≤ top →
    align16 (s.length + 1) ≤ top - room pre ∧
      pushSp (top - room pre) (s.length + 1) = top - room pre - align16 (s.length + 1)
  array : base + room args ≤ top → arrayRoom args.length ≤ top - room args ∧
    pushSp (top - room args) ((args.length + 1) * 8) = top - room args - arrayRoom args.length

theorem noWrap {v : Nat} {args : List (List UInt8)} (h : Layout m.cells pt n top) (hv : v < n)
    (hvpos : 0 < v) (hlen : args.length < MAXARG) (hstr : ∀ s ∈ args, s.length < PGSIZE) :
    NoWrap (v * PGSIZE) ((v + 1) * PGSIZE) args := by
  have hbound := stack_lt h hv
  have hpage : PGSIZE ≤ v * PGSIZE := Nat.le_mul_of_pos_left _ hvpos
  have hmod : (v + 1) * PGSIZE % 16 = 0 := by
    unfold PGSIZE
    omega
  refine ⟨?_, ?_⟩
  · intro pre s post heq hfit
    have hroom := room_mod pre
    have hs := hstr s (by rw [heq]; exact List.mem_append_right _ List.mem_cons_self)
    exact pushSp_eq (by omega) (by omega) (by omega)
  · intro hfit
    have hroom := room_mod args
    have harray : (args.length + 1) * 8 ≤ PGSIZE := by
      unfold MAXARG at hlen
      unfold PGSIZE
      omega
    exact pushSp_eq (by omega) (by omega) (by omega)

/-- The stack of a program with the arguments `argv`, if they fit. -/
theorem pushStack_spec {v : Nat} {argv : List Nat} (h : Layout m.cells pt n top)
    (hs : Sound k m (space m.cells pt n + argPages argv)) (hv : v < n) (hvpos : 0 < v)
    (hu : entry m.cells 2 pt v &&& PTE_U ≠ 0) (hlen : argv.length < MAXARG)
    (hstr : ∀ a ∈ argv, (cstring m a).length < PGSIZE) :
    if StackFits (argv.map (cstring m)) then
      ∃ m', pushStack m pt (v * PGSIZE) ((v + 1) * PGSIZE) argv =
        (some (stackSp ((v + 1) * PGSIZE) (argv.map (cstring m)), argv.length), m') ∧
        Resized m m' pt n n top 0 ∧
        ∃ ps, ArgStack (image m'.cells pt) (v * PGSIZE) ((v + 1) * PGSIZE) (argv.map (cstring m)) ps
          (stackSp ((v + 1) * PGSIZE) (argv.map (cstring m)))
    else (pushStack m pt (v * PGSIZE) ((v + 1) * PGSIZE) argv).1 = none := by
  have hsum : (v + 1) * PGSIZE = v * PGSIZE + PGSIZE := Nat.succ_mul v PGSIZE
  have hmod : (v + 1) * PGSIZE % 16 = 0 := by
    unfold PGSIZE
    omega
  have hmax : ([] : List Nat).length + argv.length ≤ MAXARG := by
    rw [List.length_nil]
    omega
  have hpush := pushArgs_spec h hs hv hvpos hu hmax hstr hmod (by omega) (Nat.le_refl _)
  have hwrap : NoWrap (v * PGSIZE) ((v + 1) * PGSIZE) (argv.map (cstring m)) := by
    apply noWrap h hv hvpos
    · rw [List.length_map]
      exact hlen
    · intro s hs
      obtain ⟨a, ha, rfl⟩ := List.mem_map.mp hs
      exact hstr a ha
  have hargc : (argv.map (cstring m)).length = argv.length := List.length_map ..
  rw [pushStack]
  by_cases hroom : v * PGSIZE + room (argv.map (cstring m)) ≤ (v + 1) * PGSIZE
  · rw [if_pos hroom] at hpush
    obtain ⟨m₁, heq, hlaid⟩ := hpush
    obtain ⟨hle, hsp⟩ := hwrap.array hroom
    have hustack :
        ((placeArgs ((v + 1) * PGSIZE) (argv.map (cstring m))).map Prod.fst).length =
        argv.length := by
      rw [List.length_map, placeArgs_length, hargc]
    rw [hargc] at hsp hle
    rw [heq]
    dsimp only
    rw [List.nil_append, hustack, hsp]
    by_cases hfits : StackFits (argv.map (cstring m))
    · have hfit := hfits
      rw [StackFits, hargc] at hfit
      have hsp' : (v + 1) * PGSIZE - room (argv.map (cstring m)) - arrayRoom argv.length =
          stackSp ((v + 1) * PGSIZE) (argv.map (cstring m)) := by
        rw [stackSp, hargc]
      have hge : (argv.length + 1) * 8 ≤ arrayRoom argv.length := align16_ge _
      have hbase :
          ¬ (v + 1) * PGSIZE - room (argv.map (cstring m)) - arrayRoom argv.length <
          v * PGSIZE := by
        omega
      have hu₁ : entry m₁.cells 2 pt v &&& PTE_U ≠ 0 := by
        rw [hlaid.resized.kept v hv hv]
        exact hu
      have hwords :
          (words ((placeArgs ((v + 1) * PGSIZE) (argv.map (cstring m))).map Prod.fst ++
            [0])).length = 8 * (argv.length + 1) := by
        rw [words_length, List.length_append, hustack, List.length_singleton]
      obtain ⟨m', hout, hst⟩ := copyout_stored
        ((v + 1) * PGSIZE - room (argv.map (cstring m)) - arrayRoom argv.length)
        (words ((placeArgs ((v + 1) * PGSIZE) (argv.map (cstring m))).map Prod.fst ++ [0]))
        hlaid.resized.layout (hs.left.moves hlaid.resized.moves) hv hu₁ (by
          intro hnil
          rw [hnil, List.length_nil] at hwords
          omega) (by omega) (by omega)
      rw [if_pos hfits, if_neg hbase, hout]
      rw [hsp'] at hst ⊢
      exact ⟨m', rfl, hlaid.resized.trans hst.resized (Or.inl (Nat.le_refl n)), _,
        argStack_of_stores hv h hfits hlaid hst⟩
    · have hno := hfits
      rw [StackFits, hargc] at hno
      have hbase :
          (v + 1) * PGSIZE - room (argv.map (cstring m)) - arrayRoom argv.length < v * PGSIZE := by
        omega
      rw [if_neg hfits, if_pos hbase]
  · rw [if_neg hroom] at hpush
    have hfits : ¬ StackFits (argv.map (cstring m)) := by
      unfold StackFits
      omega
    rw [if_neg hfits]
    split
    · rfl
    · next heq =>
      rw [heq] at hpush
      cases hpush

/-! ### `exec` -/

/-- There is memory for the two stack pages of a program of `sz` bytes; it has `sz1` bytes then. -/
structure StackAlloc (k : Kernel) (m : Mem) (new sz sz1 : Nat) (m' : Mem) : Prop where
  alloc : uvmalloc k m new (PGROUNDUP sz) ((PGROUNDUP sz + 2 * PGSIZE) % 2 ^ 64) PTE_W =
    .ok (sz1, m')
  ne_zero : sz1 ≠ 0

/-- The stack of the program in a process, whose table is `new` and whose size is `sz1`. -/
structure ProgramStack (m : Mem) (trapframe new sz1 : Nat) (args : List (List UInt8)) (sp : Nat) :
    Prop where
  a1 : Ram.pte m.cells trapframe regA1 = sp
  pointer : Ram.pte m.cells trapframe regSp = sp
  stack : ∃ ps, ArgStack (image m.cells new) (sz1 - PGSIZE) sz1 args ps sp
  guard : Leaf (entry m.cells 2 new (sz1 / PGSIZE - 2)) ∧
    entry m.cells 2 new (sz1 / PGSIZE - 2) &&& PTE_U = 0
  user : entry m.cells 2 new (sz1 / PGSIZE - 1) &&& PTE_U ≠ 0

variable {pr : Proc}

/-- `exec` of a program that loads goes on with its stack. -/
theorem Loads.exec_eq {tf new sz : Nat} {file : List UInt8} {m₁ m₂ : Mem}
    (h : Loads k m tf file new m₁ sz m₂) (it : Inodes) (ip pagetable oldsz : Nat)
    (argv : List Nat) :
    ∃ it', Restored it it' ∧ exec k m it pagetable oldsz tf (some (ip, file)) argv =
      execStack k m₂ it' new sz tf (elfhdr file).entry argv pagetable oldsz := by
  obtain ⟨it', hput, hit⟩ := iunlockput_held it ip
  have hmagic := h.magic
  have hseg := h.segments
  rw [elfhdr] at hmagic hseg
  refine ⟨it'.end_op, hit, ?_⟩
  rw [exec]
  dsimp only
  rw [ilock_eq]
  simp only [bind, Except.bind]
  rw [if_neg (not_not_intro h.header), if_neg (not_not_intro hmagic), h.pagetable]
  dsimp only
  rw [hseg]
  simp only [if_true]
  rw [hput]
  rfl

theorem setImage_regs {tf sp entry : Nat} {c : Ram} (hsp : sp < 256 ^ 8)
    (hc : c tf = (m.setImage tf sp entry).cells tf) :
    Ram.pte c tf regA1 = sp ∧ Ram.pte c tf regSp = sp := by
  have heq : (m.setImage tf sp entry).cells =
      Ram.setPte (Ram.setPte (Ram.setPte m.cells tf regA1 sp) tf regEpc entry) tf regSp sp := rfl
  rw [heq] at hc
  refine ⟨?_, ?_⟩
  · rw [Ram.pte_congr hc, Ram.pte_setPte_of_ne (by decide), Ram.pte_setPte_of_ne (by decide),
      Ram.pte_setPte_self hsp]
  · rw [Ram.pte_congr hc, Ram.pte_setPte_self hsp]

theorem stack_top (n : Nat) : (n + 1 + 1) * PGSIZE = (n + 2) * PGSIZE := by
  rw [Nat.add_assoc]

/-- `exec` of a program that loads, with memory for its stack, succeeds if the arguments fit in the
stack page, and then lays them out there. -/
theorem execStack_layout {new sz sz1 : Nat} (entry' : Nat) {m₁ : Mem} {argv : List Nat}
    (it : Inodes) (hnew : Layout m.cells new (pages sz) (topEntries k pr.trapframe))
    (hold : Layout m.cells pr.pagetable (pages pr.sz) (topEntries k pr.trapframe))
    (hs : Sound k m (space m.cells new (pages sz) + pr.hold m.cells + argPages argv))
    (hstack : StackAlloc k m new sz sz1 m₁) (hlen : argv.length < MAXARG)
    (hstr : ∀ a ∈ argv, (cstring m a).length < PGSIZE) :
    NoWrap (sz1 - PGSIZE) sz1 (argv.map (cstring m)) ∧
    Returns (execStack k m it new sz pr.trapframe entry' argv pr.pagetable pr.sz) (fun r ↦
      (r.1.isSome = true ↔ StackFits (argv.map (cstring m))) ∧
      ∀ res, r.1 = some res → res = (new, sz1, argv.length) ∧
        ∃ sp, ProgramStack r.2.2 pr.trapframe new sz1 (argv.map (cstring m)) sp) := by
  have hs' : Sound k m (space m.cells new (pages sz) + (pr.hold m.cells + argPages argv)) :=
    hs.congr (add_assoc _ _ _).symm
  have halloc := (stackAlloc_spec hnew hs'.left).elim hstack.alloc
  dsimp only at halloc
  rw [if_neg hstack.ne_zero] at halloc
  obtain ⟨hsz1, hgrown⟩ := halloc
  obtain ⟨m₂, hclear, hready⟩ := stackClear_spec hgrown hs'.left
  rw [← hsz1] at hclear
  -- the arguments and the process are not touched by what is done to the new address space
  have hs₂ := hs'.moves (hready.moves.add (pr.hold m.cells + argPages argv))
  have hkeep {q : Nat} (hq : 0 < (pr.hold m.cells + argPages argv) q) : m₂.cells q = m.cells q :=
    hready.moves.cells_of_pos hs'.once hq
  have harg {a : Nat} (ha : a ∈ argv) : cstring m₂ a = cstring m a := by
    apply cstring_congr
    apply hkeep
    have : 0 < argPages argv a := List.count_pos_iff.mpr ha
    rw [Pi.add_apply]
    omega
  have hmap : argv.map (cstring m₂) = argv.map (cstring m) :=
    List.map_congr_left (fun a ha ↦ harg ha)
  have huser : entry m₂.cells 2 new (pages sz + 1) &&& PTE_U ≠ 0 := by
    rw [and_flags _ (by decide), ← PTE_FLAGS_eq, hready.stack]
    exact userFlags_user PTE_W
  have hsargs : Sound k m₂ (space m₂.cells new (pages sz + 2) + argPages argv) := by
    apply hs₂.mono
    intro q
    simp only [Pi.add_apply]
    omega
  have hpush :=
    pushStack_spec (v := pages sz + 1) hready.layout hsargs (by omega) (by omega) huser hlen
    (fun a ha ↦ by rw [harg ha]; exact hstr a ha)
  rw [hmap, stack_top] at hpush
  have hbase : (pages sz + 2) * PGSIZE - PGSIZE = (pages sz + 1) * PGSIZE := by
    rw [Nat.add_mul, Nat.add_mul]
    omega
  have hwrap :
      NoWrap ((pages sz + 1) * PGSIZE) ((pages sz + 1 + 1) * PGSIZE) (argv.map (cstring m)) := by
    apply noWrap hready.layout (by omega) (by omega)
    · rw [List.length_map]
      exact hlen
    · intro s hs
      obtain ⟨a, ha, rfl⟩ := List.mem_map.mp hs
      exact hstr a ha
  rw [stack_top] at hwrap
  rw [hsz1, hbase]
  refine ⟨hwrap, ?_⟩
  rw [execStack]
  dsimp only
  refine Returns.bind (P := fun r ↦ r = (sz1, m₁)) ⟨_, hstack.alloc, rfl⟩ ?_
  rintro _ rfl
  dsimp only
  rw [if_neg hstack.ne_zero]
  refine Returns.bind (P := fun m' ↦ m' = m₂) ⟨_, hclear, rfl⟩ ?_
  intro m₄ hm₄
  rw [hm₄, hsz1, hbase]
  by_cases hfits : StackFits (argv.map (cstring m))
  · rw [if_pos hfits] at hpush
    obtain ⟨m₃, heq, hres, ps, hargs⟩ := hpush
    rw [heq]
    dsimp only
    have hm₃ := hready.moves.trans hres.moves
    have hsp' : Sound k m (space m.cells new (pages sz) + pr.hold m.cells) := hs.left
    have hun := Moves.untouched hm₃ hsp'
    have hs₃ := hsp'.moves (hm₃.add (pr.hold m.cells))
    rw [← hun.hold] at hs₃
    apply (commit_spec (hun.table.layout hold) hs₃
      (stackSp ((pages sz + 2) * PGSIZE) (argv.map (cstring m)))
      entry').bind
    intro m' hm'
    refine Returns.pure ⟨⟨fun _ ↦ hfits, fun _ ↦ rfl⟩, ?_⟩
    intro res hr
    have hr := Option.some.inj hr
    subst hr
    have hdiv : (pages sz + 2) * PGSIZE / PGSIZE = pages sz + 2 := page_div _
    have htable := hm'.table.entries
    have hsp : stackSp ((pages sz + 2) * PGSIZE) (argv.map (cstring m)) < 256 ^ 8 := by
      have hbound := stack_lt hready.layout (show pages sz + 1 < pages sz + 2 by omega)
      have hpow : 256 ^ 8 = 2 ^ 64 := by decide
      rw [stack_top] at hbound
      rw [stackSp, hpow]
      omega
    obtain ⟨ha1, hregsp⟩ := setImage_regs hsp hm'.trapframe
    refine ⟨rfl, _, ha1, hregsp, ⟨ps, ?_⟩, ?_, ?_⟩
    · rw [hbase]
      exact hargs.congr hm'.same
    · rw [hdiv, Nat.add_sub_cancel, htable, hres.kept _ (by omega) (by omega)]
      exact ⟨hready.layout.leaf _ (by omega), hready.guard⟩
    · have hlast : pages sz + 2 - 1 = pages sz + 1 := rfl
      rw [hdiv, hlast, htable, hres.kept _ (by omega) (by omega)]
      exact huser
  · rw [if_neg hfits] at hpush
    have hres := pushStack_resized ((pages sz + 1) * PGSIZE) ((pages sz + 2) * PGSIZE) argv
      hready.layout hsargs.left 0
    generalize pushStack m₂ new ((pages sz + 1) * PGSIZE) ((pages sz + 2) * PGSIZE) argv = r at *
    obtain ⟨r, m₃⟩ := r
    dsimp only at hpush
    subst hpush
    have hround : pages ((pages sz + 2) * PGSIZE) = pages sz + 2 := pages_mul _
    have hl := hres.layout
    have hs₃ := hsargs.left.moves hres.moves
    rw [← hround] at hl hs₃
    apply (execBad_spec it hl hs₃).mono
    rintro ⟨r, it', m'⟩ ⟨hr, -, -⟩
    dsimp only at hr
    subst hr
    exact ⟨⟨(by intro h; cases h), fun h ↦ (hfits h).elim⟩, (by intro _ h; cases h)⟩

/-- `exec` of a program that loads, with memory for its stack. -/
theorem Loads.exec_layout {new sz sz1 : Nat} {file : List UInt8} {m₁ m₂ m₃ : Mem} {argv : List Nat}
    (hload : Loads k m pr.trapframe file new m₁ sz m₂) (h : Shape k m pr)
    (hargs : Sound k m (pr.hold m.cells + argPages argv)) (hlen : argv.length < MAXARG)
    (hstr : ∀ a ∈ argv, (cstring m a).length < PGSIZE) (hstack : StackAlloc k m₂ new sz sz1 m₃)
    (it : Inodes) (ip : Nat) :
    NoWrap (sz1 - PGSIZE) sz1 (argv.map (cstring m)) ∧
    Returns (exec k m it pr.pagetable pr.sz pr.trapframe (some (ip, file)) argv) (fun r ↦
      (r.1.isSome = true ↔ StackFits (argv.map (cstring m))) ∧
      ∀ res, r.1 = some res → res = (new, sz1, argv.length) ∧
        ∃ sp, ProgramStack r.2.2 pr.trapframe new sz1 (argv.map (cstring m)) sp) := by
  have hs : Sound k m 0 := h.sound.mono (fun _ ↦ Nat.zero_le _)
  have htf := h.trapframe_lt
  have hspace := hload.space hs (by omega)
  have hm₂ := hspace.moves
  have hun := Moves.untouched hm₂ (h.sound.congr (zero_add _))
  have hs₂ : Sound k m₂ (Vm.space m₂.cells new (pages sz) + pr.hold m₂.cells + argPages argv) := by
    have hadd := hm₂.add (pr.hold m.cells + argPages argv)
    rw [zero_add, ← hun.hold, ← add_assoc] at hadd
    rw [← hun.hold] at hargs
    exact hargs.moves hadd
  have harg {a : Nat} (ha : a ∈ argv) : cstring m₂ a = cstring m a := by
    apply cstring_congr
    have hpos : 0 < argPages argv a := List.count_pos_iff.mpr ha
    apply hm₂.cells_of_pos (hargs.congr (zero_add _)).once
    rw [Pi.add_apply]
    omega
  have hmap : argv.map (cstring m₂) = argv.map (cstring m) :=
    List.map_congr_left (fun a ha ↦ harg ha)
  obtain ⟨it', -, heq⟩ := hload.exec_eq it ip pr.pagetable pr.sz argv
  have hlayout := execStack_layout (elfhdr file).entry it' hspace.loaded.layout
    (hun.table.layout h.layout) hs₂ hstack hlen (fun a ha ↦ by rw [harg ha]; exact hstr a ha)
  rw [hmap] at hlayout
  rw [heq]
  exact hlayout

/-- `exec` of a program that loads, with memory for its stack: it succeeds if and only if the
strings and the array of pointers fit in the stack page, and then they are laid out there. The stack
pointer does not wrap around on the way. -/
theorem exec_argument_stack {new sz sz1 : Nat} {file : List UInt8} {m₁ m₂ m₃ : Mem}
    {argv : List Nat} (h : Shape k m pr) (hargs : Sound k m (pr.hold m.cells + argPages argv))
    (hlen : argv.length ≤ MAXARG - 1) (hstr : ∀ a ∈ argv, (cstring m a).length < PGSIZE)
    (hload : Loads k m pr.trapframe file new m₁ sz m₂) (hstack : StackAlloc k m₂ new sz sz1 m₃)
    (it : Inodes) (ip : Nat) :
    NoWrap (sz1 - PGSIZE) sz1 (argv.map (cstring m)) ∧
    Returns (exec k m it pr.pagetable pr.sz pr.trapframe (some (ip, file)) argv) (fun r ↦
      (r.1.isSome = true ↔ StackFits (argv.map (cstring m))) ∧
      ∀ res, r.1 = some res → res = (new, sz1, argv.length) ∧
        ∃ sp, ProgramStack r.2.2 pr.trapframe new sz1 (argv.map (cstring m)) sp) := by
  have hmax : argv.length < MAXARG := by
    unfold MAXARG at *
    omega
  exact hload.exec_layout h hargs hmax hstr hstack it ip

end

/-! ### An example -/

/-- A string ends at its first NUL. -/
theorem cstring_length_le {m : Mem} {page i : Nat} (hi : i < PGSIZE) (h : m.cells page i = 0) :
    (cstring m page).length ≤ i := by
  by_contra hlt
  have hlt : i < (cstring m page).length := by omega
  have hmem := List.getElem_mem hlt
  have hget : (cstring m page)[i] = m.cells page i := by
    have hread : (m.read page 0 PGSIZE)[i]? = some (m.cells page i) := by
      rw [Mem.read, List.getElem?_map, List.getElem?_range hi, Option.map_some, Nat.zero_add]
    have hprefix : cstring m page <+: m.read page 0 PGSIZE := by
      unfold cstring
      exact List.takeWhile_prefix _
    rw [List.prefix_iff_getElem?.mp hprefix i hlt] at hread
    exact Option.some.inj hread
  rw [hget, h] at hmem
  unfold cstring at hmem
  exact absurd (List.all_eq_true.mp List.all_takeWhile 0 hmem) (by decide)

/-- There is memory for the stack. -/
theorem stackAlloc_ok {k : Kernel} {m : Mem} {new sz : Nat} {top : Nat → Nat}
    (h : Layout m.cells new (pages sz) top) (hs : Sound k m (space m.cells new (pages sz)))
    (hf : m.fails = []) (hn : 6 ≤ m.free.length) : ∃ sz1 m', StackAlloc k m new sz sz1 m' := by
  have hT := TOP_mul
  have hle := Nat.mul_le_mul_right PGSIZE h.size
  obtain ⟨⟨sz1, m'⟩, halloc, -⟩ := stackAlloc_spec h hs
  have halloc' := halloc
  rw [PGROUNDUP_eq h.size, stack_size h.size] at halloc'
  have hsub : (pages sz + 2) * PGSIZE - pages sz * PGSIZE = 2 * PGSIZE := by
    rw [Nat.add_mul, Nat.add_sub_cancel_left]
  have htwo : pages (2 * PGSIZE) = 2 := pages_mul 2
  obtain ⟨hsz1, -, -⟩ := uvmalloc_ok hf (by rw [hsub, htwo]; omega)
    (Nat.mul_le_mul_right _ (by omega)) (by omega) halloc'
  refine ⟨sz1, m', halloc, ?_⟩
  dsimp only at hsz1
  rw [hsz1]
  exact Nat.mul_ne_zero (by omega) (by decide)

/-- The small program loads, with memory for its stack. -/
theorem tinyElf_ready {k : Kernel} {m : Mem} {tf : Nat} (wrap : Bool) (hs : Sound k m 0)
    (htf : tf < 2 ^ 52) (hf : m.fails = []) (hn : 14 ≤ m.free.length) : ∃ new m₁ m₂ sz1 m₃,
      Loads k m tf (tinyElf wrap) new m₁ 1 m₂ ∧ StackAlloc k m₂ new 1 sz1 m₃ := by
  obtain ⟨new, m₁, m₂, hload, hf₂, hn₂⟩ := tinyElf_loads wrap hs htf hf (by omega)
  have hspace := hload.space hs htf
  have hlayout : Layout m₂.cells new (pages 1) (topEntries k tf) := hspace.loaded.layout
  obtain ⟨sz1, m₃, hstack⟩ := stackAlloc_ok hlayout (hs.moves hspace.moves) hf₂ (by omega)
  exact ⟨new, m₁, m₂, sz1, m₃, hload, hstack⟩

/-- The first process executes a small program with the argument "A". -/
theorem exec_argument_stack_tiny :
    ∃ s, userinit builtKernel (beforeUserinit builtKernel 0) = .ok s ∧
    ∃ page m, kalloc (s.failing []).mem = (some page, m) ∧
      Returns (exec builtKernel (m.write page 0 [65, 0]) s.inodes (s.procs initSlot).pagetable
        (s.procs initSlot).sz (s.procs initSlot).trapframe (some (1, tinyElf false)) [page])
          (fun r ↦ r.1.isSome = true) := by
  obtain ⟨s, hs, hshape, -, hfirst⟩ := builtKernel_userinit
  have hfree : 100 ≤ (s.failing []).mem.free.length := hfirst.free
  obtain ⟨page, m, hk, hf, hn⟩ := kalloc_ok (m := (s.failing []).mem) rfl (by omega)
  refine ⟨s, hs, page, m, hk, ?_⟩
  generalize hw : m.write page 0 [65, 0] = m' at *
  have hf' : m'.fails = [] := by
    rw [← hw]
    exact hf
  have hn' : m'.free.length = m.free.length := by
    rw [← hw]
    rfl
  have hnul : m'.cells page 1 = 0 := by
    rw [← hw, write_byte]
    rfl
  have hmoves : Moves (s.failing []).mem.toHeap m'.toHeap 0 (0 + one page) := by
    rw [← hw]
    exact kalloc_moves (w := m.write page 0 [65, 0]) hk rfl (fun q hq ↦ write_other hq 0 _) 0
  have hshape : Shape builtKernel (s.failing []).mem (s.procs initSlot) := hshape.heap rfl
  have hun := Moves.untouched hmoves (hshape.sound.congr (zero_add _))
  have hargs : Sound builtKernel m' ((s.procs initSlot).hold m'.cells + argPages [page]) := by
    have hadd := hmoves.add ((s.procs initSlot).hold (s.failing []).mem.cells)
    rw [zero_add, zero_add, add_comm] at hadd
    rw [hun.hold, argPages_cons, argPages_nil, zero_add]
    exact hshape.sound.moves hadd
  have hsound := hargs.left
  rw [hun.hold] at hsound
  have hshape := hun.shape hshape hsound
  have htf : (s.procs initSlot).trapframe < 2 ^ 52 := Nat.lt_trans hshape.trapframe_lt (by decide)
  have hs₀ : Sound builtKernel m' 0 := hargs.mono (fun _ ↦ Nat.zero_le _)
  obtain ⟨new, m₁, m₂, sz1, m₃, hload, hstack⟩ := tinyElf_ready false hs₀ htf hf' (by omega)
  have hlen : (cstring m' page).length ≤ 1 := cstring_length_le (by decide) hnul
  have hstr : ∀ a ∈ [page], (cstring m' a).length < PGSIZE := by
    intro a ha
    rw [List.mem_singleton.mp ha]
    exact Nat.lt_of_le_of_lt hlen (by decide)
  have hfits : StackFits ([page].map (cstring m')) := by
    rw [StackFits, List.map_singleton, room_cons, room_nil, List.length_singleton]
    unfold arrayRoom align16 PGSIZE
    omega
  have hone : [page].length ≤ MAXARG - 1 := by
    rw [List.length_singleton]
    decide
  apply (exec_argument_stack hshape hargs hone hstr hload hstack s.inodes 1).2.mono
  rintro r ⟨hiff, -⟩
  exact hiff.mpr hfits

end Xv6.Vm
