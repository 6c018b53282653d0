import Xv6.Malloc.FreeList

/-!
# What `malloc` and `free` return

The two calls on a well-formed free list. A bound on the rounds that is large enough does not change
the result. `malloc` looks at every block once; if none is large enough it asks `sbrk` for more,
and then it finds one.
-/

namespace Xv6.Malloc

open Lib

section
variable {base lo bp nunits : Nat} {s t : Heap} {nodes l₁ l₂ : List Nat} {ok : Bool}

/-! ### More rounds -/

theorem findPlace_mono {fuel fuel' p z : Nat} (hle : fuel ≤ fuel')
    (h : Heap.findPlace bp fuel p s = some z) : Heap.findPlace bp fuel' p s = some z := by
  induction fuel generalizing fuel' p with
  | zero => cases h
  | succ fuel ih =>
    obtain ⟨fuel', rfl⟩ := Nat.exists_eq_add_one_of_ne_zero (Nat.ne_zero_of_lt hle)
    rw [Heap.findPlace] at h ⊢
    split
    · next h₁ =>
      rw [if_pos h₁] at h
      exact h
    · next h₁ =>
      rw [if_neg h₁] at h
      split
      · next h₂ =>
        rw [if_pos h₂] at h
        exact h
      · next h₂ =>
        rw [if_neg h₂] at h
        exact ih (Nat.le_of_succ_le_succ hle) h

theorem free_mono {fuel fuel' ap : Nat} (hle : fuel ≤ fuel') (h : s.free fuel ap = some t) :
    s.free fuel' ap = some t := by
  unfold Heap.free at h ⊢
  dsimp only at h ⊢
  cases hfind : Heap.findPlace (ap - HDR) fuel s.freep s with
  | none =>
    rw [hfind] at h
    cases h
  | some p =>
    rw [hfind] at h
    rw [findPlace_mono hle hfind]
    exact h

theorem morecore_mono {fuel fuel' : Nat} (hle : fuel ≤ fuel') {r : Option Heap}
    (h : s.morecore fuel nunits ok = some r) : s.morecore fuel' nunits ok = some r := by
  unfold Heap.morecore at h ⊢
  dsimp only at h ⊢
  split
  · next hok =>
    rw [if_pos hok] at h
    obtain ⟨t, ht, hr⟩ := Option.map_eq_some_iff.mp h
    rw [free_mono hle ht, ← hr]
    rfl
  · next hok =>
    rw [if_neg hok] at h
    exact h

theorem mallocLoop_mono {fuel fuel' prevp p : Nat} (hle : fuel ≤ fuel') {r : Nat × Heap}
    (h : Heap.mallocLoop ok nunits fuel prevp p s = some r) :
    Heap.mallocLoop ok nunits fuel' prevp p s = some r := by
  induction fuel generalizing fuel' prevp p s with
  | zero => cases h
  | succ fuel ih =>
    obtain ⟨fuel', rfl⟩ := Nat.exists_eq_add_one_of_ne_zero (Nat.ne_zero_of_lt hle)
    have hle' := Nat.le_of_succ_le_succ hle
    rw [Heap.mallocLoop] at h ⊢
    split
    · next h₁ =>
      rw [if_pos h₁] at h
      exact h
    · next h₁ =>
      rw [if_neg h₁] at h
      split
      · next h₂ =>
        rw [if_pos h₂] at h
        cases hmore : s.morecore fuel nunits ok with
        | none =>
          rw [hmore] at h
          cases h
        | some o =>
          rw [hmore] at h
          rw [morecore_mono hle' hmore]
          cases o with
          | none => exact h
          | some t => exact ih hle' h
      · next h₂ =>
        rw [if_neg h₂] at h
        exact ih hle' h

/-! ### The search -/

/-- A block that is large enough is found in one turn around the list. -/
theorem mallocLoop_found {rest : List Nat} {prevp : Nat} (hpath : Path s.ptr prevp rest s.freep)
    (hnot : s.freep ∉ rest) (hex : ∃ x ∈ rest ++ [s.freep], nunits ≤ s.size x) :
    ∃ prev ∈ prevp :: rest, nunits ≤ s.size (s.ptr prev) ∧ ∀ fuel, rest.length < fuel →
      Heap.mallocLoop ok nunits fuel prevp (s.ptr prevp) s =
        some (s.take nunits prev (s.ptr prev)) := by
  induction rest generalizing prevp with
  | nil =>
    obtain ⟨x, hx, hsize⟩ := hex
    have hfirst : s.ptr prevp = s.freep := hpath
    rw [List.mem_singleton.mp hx, ← hfirst] at hsize
    refine ⟨prevp, List.mem_cons_self, hsize, ?_⟩
    intro fuel hfuel
    obtain ⟨fuel, rfl⟩ := Nat.exists_eq_add_one_of_ne_zero (Nat.ne_zero_of_lt hfuel)
    rw [Heap.mallocLoop, if_pos hsize]
  | cons y rest ih =>
    by_cases hy : nunits ≤ s.size (s.ptr prevp)
    · refine ⟨prevp, List.mem_cons_self, hy, ?_⟩
      intro fuel hfuel
      obtain ⟨fuel, rfl⟩ := Nat.exists_eq_add_one_of_ne_zero (Nat.ne_zero_of_lt hfuel)
      rw [Heap.mallocLoop, if_pos hy]
    · have hfirst : s.ptr prevp = y := hpath.1
      have hrest : ∃ x ∈ rest ++ [s.freep], nunits ≤ s.size x := by
        obtain ⟨x, hx, hsize⟩ := hex
        rcases List.mem_cons.mp hx with rfl | hx
        · rw [hfirst] at hy
          exact (hy hsize).elim
        · exact ⟨x, hx, hsize⟩
      obtain ⟨prev, hprev, hsize, hloop⟩ :=
        ih hpath.2 (fun hmem ↦ hnot (List.mem_cons_of_mem _ hmem)) hrest
      refine ⟨prev, List.mem_cons_of_mem _ hprev, hsize, ?_⟩
      intro fuel hfuel
      obtain ⟨fuel, rfl⟩ := Nat.exists_eq_add_one_of_ne_zero (Nat.ne_zero_of_lt hfuel)
      have hne : s.ptr prevp ≠ s.freep := by
        intro heq
        apply hnot
        rw [← heq, hfirst]
        exact List.mem_cons_self
      rw [Heap.mallocLoop, if_neg hy, if_neg hne, hfirst]
      exact hloop fuel (Nat.lt_of_succ_lt_succ hfuel)

/-- When no block is large enough, the search ends at `freep` and calls `morecore`. -/
theorem mallocLoop_full {rest : List Nat} {prevp : Nat} (hpath : Path s.ptr prevp rest s.freep)
    (hnot : s.freep ∉ rest) (hall : ∀ x ∈ rest ++ [s.freep], s.size x < nunits) (fuel : Nat) :
    Heap.mallocLoop ok nunits (rest.length + (fuel + 1)) prevp (s.ptr prevp) s =
      match s.morecore fuel nunits ok with
      | none => none
      | some none => some (0, s)
      | some (some t) => Heap.mallocLoop ok nunits fuel t.freep (t.ptr t.freep) t := by
  induction rest generalizing prevp with
  | nil =>
    have hfirst : s.ptr prevp = s.freep := hpath
    have hsmall := hall s.freep List.mem_cons_self
    rw [List.length_nil, Nat.zero_add, hfirst, Heap.mallocLoop, if_neg (Nat.not_le_of_lt hsmall)]
    rcases s.morecore fuel nunits ok with _ | _ | t <;> exact if_pos rfl
  | cons y rest ih =>
    have hfirst : s.ptr prevp = y := hpath.1
    have hsmall := hall y List.mem_cons_self
    have hne : y ≠ s.freep := by
      rintro rfl
      exact hnot List.mem_cons_self
    have hlen : (y :: rest).length + (fuel + 1) = rest.length + (fuel + 1) + 1 := by
      rw [List.length_cons]
      omega
    rw [hlen, hfirst, Heap.mallocLoop, if_neg (Nat.not_le_of_lt hsmall), if_neg hne]
    exact ih hpath.2 (fun hmem ↦ hnot (List.mem_cons_of_mem _ hmem))
      (fun x hx ↦ hall x (List.mem_cons_of_mem _ hx))

/-- What is found is taken off the list. -/
theorem take_spec (h : FreeList base lo s nodes) (hbase : base + HDR ≤ lo) (hpos : 1 ≤ nunits)
    {prev : Nat} (hprev : prev ∈ base :: nodes) (hsize : nunits ≤ s.size (s.ptr prev)) :
    ∃ hd nodes', (s.take nunits prev (s.ptr prev)).1 = hd + HDR ∧
      Taken base lo nunits hd s (s.take nunits prev (s.ptr prev)).2 nodes nodes' := by
  have hne : s.ptr prev ≠ base := by
    intro heq
    rw [heq, h.sentinel] at hsize
    omega
  have hmem : s.ptr prev ∈ nodes := by
    rcases h.circle.succ_cases hprev with ⟨-, hend⟩ | ⟨m, m', heq⟩
    · exact (hne hend).elim
    · have hin : s.ptr prev ∈ base :: nodes := by
        rw [heq]
        exact List.mem_append_right _ (List.mem_cons_of_mem _ List.mem_cons_self)
      exact (List.mem_cons.mp hin).resolve_left hne
  unfold Heap.take
  split
  · next hall =>
    obtain ⟨l₁, l₂, hsplit⟩ := List.append_of_mem hmem
    rw [hsplit] at h hprev ⊢
    have hlast := h.circle.pred_unique (h.nodup hbase) hne hprev rfl
    refine ⟨s.ptr prev, l₁ ++ l₂, rfl, ?_⟩
    have htake := take_all h hbase hpos hall
    rw [← hlast] at htake
    exact htake
  · next hmore =>
    refine ⟨s.ptr prev + HDR * (s.size (s.ptr prev) - nunits), nodes, rfl, ?_⟩
    exact take_tail h hmem hprev hbase hpos (by omega)

/-! ### `morecore` -/

/-- Below 2 GiB the argument of `sbrk` is what `morecore` asks for. -/
theorem sbrkArg_eq {nu : Nat} (h : nu * HDR < 2 ^ 31) : Heap.sbrkArg nu = (nu * HDR : Nat) := by
  unfold Heap.sbrkArg
  apply Int.bmod_eq_of_le
  · omega
  · omega

/-- The heap has grown at its end. -/
structure Grown (base lo : Nat) (s t : Heap) (nodes nodes' : List Nat) : Prop where
  list : FreeList base lo t nodes'
  brk : s.brk ≤ t.brk
  bytes : ∀ x, FreeByte t nodes' x → FreeByte s nodes x ∨ s.brk ≤ x
  size : ∀ a, a < s.brk → ¬ FreeByte s nodes a → t.size a = s.size a

theorem Grown.refl (h : FreeList base lo s nodes) : Grown base lo s s nodes nodes :=
  ⟨h, Nat.le_refl _, fun _ hx ↦ Or.inl hx, fun _ _ _ ↦ rfl⟩

/-- `morecore` puts a block on the list that is large enough. -/
theorem morecore_spec (h : FreeList base lo s nodes) (hbase : base + HDR ≤ lo) (hlo : lo ≤ s.brk)
    (hnu : nunits * HDR < 2 ^ 31) (hall : ∀ a ∈ nodes, s.size a < nunits) :
    ∃ t nodes', Grown base lo s t nodes nodes' ∧ (∃ a ∈ nodes', nunits ≤ t.size a) ∧
      ∀ fuel, nodes.length < fuel → s.morecore fuel nunits true = some (some t) := by
  generalize hnu' : (if nunits < 4096 then 4096 else nunits) = nu
  obtain ⟨hle, hpos, hlt⟩ : nunits ≤ nu ∧ 1 ≤ nu ∧ nu * HDR < 2 ^ 31 := by
    rw [← hnu']
    unfold HDR at hnu ⊢
    split <;> omega
  have hbrk : (s.brk + Heap.sbrkArg nu).toNat = s.brk + HDR * nu := by
    rw [sbrkArg_eq hlt, Nat.mul_comm HDR nu]
    omega
  generalize hs₁ : ({ s with
      brk := (s.brk + Heap.sbrkArg nu).toNat
      size := Function.update s.size s.brk nu } : Heap) = s₁
  have hbrk₁ : s₁.brk = s.brk + HDR * nu := by rw [← hbrk, ← hs₁]
  have hat : s₁.size s.brk = nu := by
    rw [← hs₁]
    exact Function.update_self _ _ _
  have hoff : ∀ a, a ≠ s.brk → s₁.size a = s.size a := by
    intro a ha
    rw [← hs₁]
    exact Function.update_of_ne ha _ _
  have hnodes : ∀ a ∈ nodes, a < s.brk := by
    intro a ha
    have h₁ := h.high a ha
    have h₂ := extent_pos s a
    unfold HDR at h₂
    omega
  have hext : ∀ a ∈ nodes, s₁.extent a = s.extent a :=
    fun a ha ↦ extent_congr (hoff a (Nat.ne_of_lt (hnodes a ha)))
  have hbytes : ∀ x, FreeByte s₁ nodes x ↔ FreeByte s nodes x := by
    intro x
    constructor
    · rintro ⟨a, ha, hx, hx'⟩
      rw [hext a ha] at hx'
      exact ⟨a, ha, hx, hx'⟩
    · rintro ⟨a, ha, hx, hx'⟩
      rw [← hext a ha] at hx'
      exact ⟨a, ha, hx, hx'⟩
  have hlist : FreeList base lo s₁ nodes := by
    refine ⟨?_, ?_, ?_, h.low, ?_, ?_⟩
    · have hne : base ≠ s.brk := by
        unfold HDR at hbase
        omega
      rw [hoff base hne]
      exact h.sentinel
    · rw [← hs₁]
      exact h.circle
    · apply h.apart.imp_of_mem
      intro a b ha _ hab
      rw [hext a ha]
      exact hab
    · intro a ha
      have := h.high a ha
      rw [hext a ha, hbrk₁]
      omega
    · rw [← hs₁]
      exact h.freep
  -- nothing is free behind the old break
  have hout : ∀ x, s.brk ≤ x → x < s.brk + HDR * nu → ¬ FreeByte s₁ nodes x := by
    intro x hx _ hfree
    obtain ⟨a, ha, -, hx'⟩ := (hbytes x).mp hfree
    have := h.high a ha
    omega
  obtain ⟨l₁, l₂, rfl, hfits⟩ :=
    exists_fits hlist hbase hat hpos hlo (Nat.le_of_eq hbrk₁.symm) hout
  obtain ⟨t, nodes', hins, hfree⟩ := free_spec hlist hbase hfits
  refine ⟨t, nodes', ⟨hins.list, ?_, ?_, ?_⟩, ?_, ?_⟩
  · rw [hins.brk, hbrk₁]
    omega
  · intro x hx
    rcases hins.bytes x hx with hx | hx
    · exact Or.inl ((hbytes x).mp hx)
    · exact Or.inr hx.1
  · intro a ha hnot
    have hout : a ∉ l₁ ++ l₂ :=
      fun hmem ↦ hnot (freeByte_head hmem (Nat.le_refl _) (by unfold HDR; omega))
    rw [hins.size a (Nat.ne_of_lt ha) hout, hoff a (Nat.ne_of_lt ha)]
  · obtain ⟨a, ha, hsize⟩ := hins.large (by
      intro a ha
      have h₁ := hall a ha
      rw [hoff a (Nat.ne_of_lt (hnodes a ha))]
      unfold HDR at hlt
      exact ⟨hnodes a ha, by omega⟩)
    exact ⟨a, ha, Nat.le_trans hle hsize⟩
  · intro fuel hfuel
    rw [Heap.morecore, hnu']
    dsimp only
    rw [if_pos rfl, hs₁, hfree fuel hfuel]
    rfl

/-! ### `malloc` -/

/-- The block at `hd` was free or comes from `sbrk`, and is not on the list any more. -/
structure Got (base lo nunits hd : Nat) (s t : Heap) (nodes nodes' : List Nat) : Prop where
  grown : Grown base lo s t nodes nodes'
  size : t.size hd = nunits
  bytes : ∀ x, hd ≤ x → x < hd + HDR * nunits →
    (FreeByte s nodes x ∨ s.brk ≤ x) ∧ ¬ FreeByte t nodes' x
  inside : lo ≤ hd ∧ hd + HDR * nunits ≤ t.brk

/-- A block is taken off the list after the heap has grown. -/
theorem Grown.got {s₁ : Heap} {nodes₁ nodes' : List Nat} {hd : Nat} (hpos : 1 ≤ nunits)
    (hg : Grown base lo s s₁ nodes nodes₁) (ht : Taken base lo nunits hd s₁ t nodes₁ nodes') :
    Got base lo nunits hd s t nodes nodes' := by
  have hfree (x : Nat) (hle : hd ≤ x) (hlt : x < hd + HDR * nunits) : FreeByte s₁ nodes₁ x :=
    (ht.bytes x hle hlt).1
  have hunits : HDR ≤ HDR * nunits := Nat.le_mul_of_pos_right HDR hpos
  unfold HDR at hunits
  refine ⟨⟨ht.list, ?_, ?_, ?_⟩, ht.size, ?_, ?_, ?_⟩
  · rw [ht.brk]
    exact hg.brk
  · exact fun x hx ↦ hg.bytes x (ht.sub x hx)
  · intro a ha hnot
    have hin : ¬ FreeByte s₁ nodes₁ a := by
      intro hfree
      rcases hg.bytes a hfree with hold | hnew
      · exact hnot hold
      · omega
    rw [ht.other a hin]
    exact hg.size a ha hnot
  · exact fun x hle hlt ↦ ⟨hg.bytes x (hfree x hle hlt), (ht.bytes x hle hlt).2⟩
  · obtain ⟨a, ha, hle, -⟩ := hfree hd (Nat.le_refl hd) (by unfold HDR; omega)
    exact Nat.le_trans (hg.list.low a ha) hle
  · obtain ⟨a, ha, -, hlt⟩ := hfree (hd + HDR * nunits - 1) (by unfold HDR; omega)
      (by unfold HDR; omega)
    have := hg.list.high a ha
    rw [ht.brk]
    unfold HDR at hlt ⊢
    omega

/-- The list can be walked from `freep`. -/
theorem FreeList.walk (h : FreeList base lo s nodes) (hbase : base + HDR ≤ lo) :
    ∃ rest, Path s.ptr s.freep rest s.freep ∧ s.freep ∉ rest ∧ rest.length = nodes.length ∧
      (∀ x, x ∈ s.freep :: rest ↔ x ∈ base :: nodes) := by
  obtain ⟨rest, hpath, hperm⟩ := h.circle.rotate h.freep
  have hnodup : (s.freep :: rest).Nodup := hperm.nodup_iff.mpr (h.nodup hbase)
  exact ⟨rest, hpath, (List.nodup_cons.mp hnodup).1, Nat.succ.inj hperm.length_eq,
    fun _ ↦ hperm.mem_iff⟩

/-- The search succeeds when there is a block that is large enough. -/
theorem mallocLoop_some (h : FreeList base lo s nodes) (hbase : base + HDR ≤ lo) (hpos : 1 ≤ nunits)
    (hex : ∃ a ∈ nodes, nunits ≤ s.size a) :
    ∃ r hd nodes', r.1 = hd + HDR ∧ Taken base lo nunits hd s r.2 nodes nodes' ∧
      ∀ fuel, nodes.length < fuel →
        Heap.mallocLoop ok nunits fuel s.freep (s.ptr s.freep) s = some r := by
  obtain ⟨rest, hpath, hnot, hlen, hmem⟩ := h.walk hbase
  have hex' : ∃ x ∈ rest ++ [s.freep], nunits ≤ s.size x := by
    obtain ⟨a, ha, hsize⟩ := hex
    refine ⟨a, ?_, hsize⟩
    rw [List.mem_append, List.mem_singleton, or_comm, ← List.mem_cons, hmem]
    exact List.mem_cons_of_mem _ ha
  obtain ⟨prev, hprev, hsize, hloop⟩ := mallocLoop_found hpath hnot hex'
  obtain ⟨hd, nodes', hfst, htaken⟩ := take_spec h hbase hpos ((hmem prev).mp hprev) hsize
  refine ⟨_, hd, nodes', hfst, htaken, ?_⟩
  rw [← hlen]
  exact hloop

/-- When `malloc` needs no more than `sbrk` can give: it fails, or it gets a block. -/
theorem mallocLoop_spec (h : FreeList base lo s nodes) (hbase : base + HDR ≤ lo) (hlo : lo ≤ s.brk)
    (hpos : 1 ≤ nunits)
    (hok : nunits * HDR < 2 ^ 31 ∨ (∃ a ∈ nodes, nunits ≤ s.size a) ∨ ok = false) :
    ∃ r fuel₀, (r = (0, s) ∨ ∃ hd nodes', r.1 = hd + HDR ∧
      Got base lo nunits hd s r.2 nodes nodes') ∧
      ∀ fuel, fuel₀ ≤ fuel →
        Heap.mallocLoop ok nunits fuel s.freep (s.ptr s.freep) s = some r := by
  by_cases hex : ∃ a ∈ nodes, nunits ≤ s.size a
  · obtain ⟨r, hd, nodes', hfst, htaken, hloop⟩ := mallocLoop_some h hbase hpos hex
    exact ⟨r, nodes.length + 1, Or.inr ⟨hd, nodes', hfst, (Grown.refl h).got hpos htaken⟩, hloop⟩
  have hsmall : ∀ a ∈ nodes, s.size a < nunits :=
    fun a ha ↦ Nat.lt_of_not_le (fun hle ↦ hex ⟨a, ha, hle⟩)
  obtain ⟨rest, hpath, hnot, hlen, hmem⟩ := h.walk hbase
  have hall : ∀ x ∈ rest ++ [s.freep], s.size x < nunits := by
    intro x hx
    rw [List.mem_append, List.mem_singleton, or_comm, ← List.mem_cons, hmem] at hx
    rcases List.mem_cons.mp hx with rfl | hx
    · rw [h.sentinel]
      exact hpos
    · exact hsmall x hx
  have hfull (fuel : Nat) (hfuel : rest.length < fuel) := by
    have hloop := @mallocLoop_full nunits s ok rest s.freep hpath hnot hall (fuel - rest.length - 1)
    rw [show rest.length + (fuel - rest.length - 1 + 1) = fuel by omega] at hloop
    exact hloop
  cases ok with
  | false =>
    refine ⟨(0, s), rest.length + 1, Or.inl rfl, ?_⟩
    intro fuel hfuel
    rw [hfull fuel hfuel]
    rfl
  | true =>
    have hroom : nunits * HDR < 2 ^ 31 := by
      rcases hok with hroom | hbig | hfail
      · exact hroom
      · exact (hex hbig).elim
      · cases hfail
    obtain ⟨t, nodes₁, hgrown, hlarge, hmore⟩ := morecore_spec h hbase hlo hroom hsmall
    obtain ⟨r, hd, nodes', hfst, htaken, hloop⟩ := mallocLoop_some hgrown.list hbase hpos hlarge
    refine ⟨r, rest.length + nodes.length + nodes₁.length + 2,
      Or.inr ⟨hd, nodes', hfst, hgrown.got hpos htaken⟩, ?_⟩
    intro fuel hfuel
    rw [hfull fuel (by omega), hmore _ (by omega)]
    exact hloop _ (by omega)

end

end Xv6.Malloc
