import SysProgLab.Proxy
import Mathlib.Data.Nat.Find

/-!
# The object buffer of `get_from_server`

The guard of the loop compares with `readcnt`, which other threads change, and not with
the length of the chunk. What is gathered stays within `data` and is a prefix of the
response exactly when the guards pass up to some round and fail from there on, and the
chunks of the rounds before fit. All states of the loop are prefixes of what it stores
in the end, so the argument is about `stored`.
-/

namespace SysProgLab

namespace Cache

/-- The contents of `data` and `cnt` whenever the loop of `get_from_server` reads. -/
def recvStates (readcnt : ℕ → ℕ) :
    ℕ → ℕ → List UInt8 → List UInt8 → ℕ → List (List UInt8 × ℕ)
  | 0, _, _, _, _ => []
  | fuel + 1, k, rest, data, cnt =>
    (data, cnt) ::
      if rest.take maxLine = [] then []
      else if cnt + readcnt k ≤ maxObjectSize then
        match memcpy data cnt (rest.take maxLine) with
        | none => []
        | some data =>
          recvStates readcnt fuel (k + 1) (rest.drop maxLine) data
            (cnt + (rest.take maxLine).length)
      else recvStates readcnt fuel (k + 1) (rest.drop maxLine) data cnt

variable {readcnt : ℕ → ℕ}

/-- The loop ends in the last of them. -/
theorem recvLoop_last {fuel : ℕ} : ∀ {k : ℕ} {rest data data' sent : List UInt8} {cnt cnt' : ℕ},
    recvLoop readcnt fuel k rest data cnt = some (data', cnt', sent) →
    (data', cnt') ∈ recvStates readcnt fuel k rest data cnt := by
  induction fuel with
  | zero =>
    intro k rest data data' sent cnt cnt' h
    cases h
  | succ fuel ih =>
    intro k rest data data' sent cnt cnt' h
    rw [recvLoop] at h
    rw [recvStates]
    by_cases hbuf : rest.take maxLine = []
    · rw [if_pos hbuf] at h
      cases h
      exact List.mem_cons_self
    rw [if_neg hbuf] at h ⊢
    refine List.mem_cons_of_mem _ ?_
    by_cases hguard : cnt + readcnt k ≤ maxObjectSize
    · rw [if_pos hguard] at h ⊢
      obtain ⟨⟨data₁, cnt₁⟩, e, h⟩ := Option.bind_eq_some_iff.mp h
      obtain ⟨data₂, hcopy, e⟩ := Option.map_eq_some_iff.mp e
      cases e
      obtain ⟨⟨data₃, cnt₃, sent₃⟩, hloop, h⟩ := Option.bind_eq_some_iff.mp h
      cases h
      rw [hcopy]
      exact ih hloop
    · rw [if_neg hguard] at h ⊢
      obtain ⟨⟨data₁, cnt₁⟩, e, h⟩ := Option.bind_eq_some_iff.mp h
      cases e
      obtain ⟨⟨data₂, cnt₂, sent₂⟩, hloop, h⟩ := Option.bind_eq_some_iff.mp h
      cases h
      exact ih hloop

/-- **Every state of the loop** has gathered a prefix of what is stored in the end. -/
theorem recvStates_take {fuel : ℕ} : ∀ {k : ℕ} {rest : List UInt8} (pre : List UInt8)
    {old : List UInt8}, ∀ st ∈ recvStates readcnt fuel k rest (pre ++ old) pre.length,
      st.1.take st.2 <+: pre ++ stored readcnt fuel k rest pre.length := by
  induction fuel with
  | zero => exact fun pre old st hst => absurd hst List.not_mem_nil
  | succ fuel ih =>
    intro k rest pre old st hst
    rw [recvStates] at hst
    rw [stored]
    rcases List.mem_cons.mp hst with rfl | hst
    · rw [List.take_left]
      exact List.prefix_append ..
    split at hst
    · cases hst
    split at hst
    · next hguard =>
      rw [if_pos hguard, ← List.append_assoc]
      rw [memcpy_append] at hst
      by_cases hfit : (rest.take maxLine).length ≤ old.length
      · rw [if_pos hfit] at hst
        rw [← List.length_append] at hst ⊢
        exact ih _ st hst
      · rw [if_neg hfit] at hst
        cases hst
    · next hguard =>
      rw [if_neg hguard]
      exact ih _ st hst

/-! ## Rounds whose guard passes, and rounds whose guard fails -/

theorem stored_pass {m fuel : ℕ} : ∀ {k cnt : ℕ} {rest : List UInt8},
    maxLine * m ≤ rest.length →
    (∀ j < m, cnt + maxLine * j + readcnt (k + j) ≤ maxObjectSize) →
    stored readcnt (m + fuel) k rest cnt = rest.take (maxLine * m) ++
      stored readcnt fuel (k + m) (rest.drop (maxLine * m)) (cnt + maxLine * m) := by
  induction m with
  | zero =>
    intro k cnt rest _ _
    rw [Nat.zero_add, Nat.mul_zero, List.take_zero, List.drop_zero, List.nil_append]
    rfl
  | succ m ih =>
    intro k cnt rest hlen hpass
    have hmul := Nat.mul_add_one maxLine m
    have htake : (rest.take maxLine).length = maxLine := by
      rw [List.length_take]
      omega
    have hguard : cnt + readcnt k ≤ maxObjectSize := hpass 0 (Nat.succ_pos m)
    have hrest : maxLine * m ≤ (rest.drop maxLine).length := by
      rw [List.length_drop]
      omega
    have hpass' : ∀ j < m,
        cnt + maxLine + maxLine * j + readcnt (k + 1 + j) ≤ maxObjectSize := by
      intro j hj
      have hj' := hpass (j + 1) (Nat.succ_lt_succ hj)
      rw [Nat.mul_add_one, ← Nat.add_assoc, Nat.add_right_comm cnt, Nat.add_comm j 1,
        ← Nat.add_assoc] at hj'
      exact hj'
    rw [Nat.succ_add, stored, if_pos hguard, htake, ih hrest hpass', List.drop_drop,
      ← List.append_assoc, hmul, Nat.add_comm (maxLine * m), List.take_add, Nat.add_assoc cnt,
      Nat.add_assoc k, Nat.add_comm 1 m]

theorem stored_skip {m fuel : ℕ} : ∀ {k cnt : ℕ} {rest : List UInt8},
    (∀ j < m, maxObjectSize < cnt + readcnt (k + j)) →
    stored readcnt (m + fuel) k rest cnt =
      stored readcnt fuel (k + m) (rest.drop (maxLine * m)) cnt := by
  induction m with
  | zero =>
    intro k cnt rest _
    rw [Nat.zero_add, Nat.mul_zero, List.drop_zero]
    rfl
  | succ m ih =>
    intro k cnt rest hfail
    have hguard : ¬cnt + readcnt k ≤ maxObjectSize := Nat.not_le.mpr (hfail 0 (Nat.succ_pos m))
    have hfail' : ∀ j < m, maxObjectSize < cnt + readcnt (k + 1 + j) := by
      intro j hj
      rw [Nat.add_assoc, Nat.add_comm 1 j]
      exact hfail (j + 1) (Nat.succ_lt_succ hj)
    rw [Nat.succ_add, stored, if_neg hguard, ih hfail', List.drop_drop, Nat.mul_add_one,
      Nat.add_comm (maxLine * m), Nat.add_assoc k, Nat.add_comm 1 m]

theorem stored_fail {fuel : ℕ} : ∀ {k cnt : ℕ} {rest : List UInt8},
    (∀ j, maxLine * j < rest.length → maxObjectSize < cnt + readcnt (k + j)) →
    stored readcnt fuel k rest cnt = [] := by
  induction fuel with
  | zero => exact fun _ => rfl
  | succ fuel ih =>
    intro k cnt rest hfail
    rcases Nat.eq_zero_or_pos rest.length with hnil | hpos
    · rw [List.length_eq_zero_iff.mp hnil, stored_nil]
    have hguard : ¬cnt + readcnt k ≤ maxObjectSize :=
      Nat.not_le.mpr (hfail 0 (by rwa [Nat.mul_zero]))
    rw [stored, if_neg hguard]
    refine ih fun j hj => ?_
    rw [List.length_drop] at hj
    rw [Nat.add_assoc, Nat.add_comm 1 j]
    refine hfail (j + 1) ?_
    rw [Nat.mul_add_one]
    omega

/-! ## The buffer -/

/-- **The object buffer is not overrun** by a response of `n` bytes, and what has been
gathered is a prefix of the response whenever the loop reads. -/
def Gathers (n : ℕ) (readcnt : ℕ → ℕ) : Prop :=
  ∀ R data : List UInt8, R.length = n → data.length = maxObjectSize →
    (recvLoop readcnt (n + 1) 0 R data 0).isSome ∧
    ∀ st ∈ recvStates readcnt (n + 1) 0 R data 0, st.1.take st.2 <+: R

/-- The guards pass up to round `K` and fail from there on, as far as the response goes,
and the chunks before round `K` fit. -/
structure StopsAt (readcnt : ℕ → ℕ) (n K : ℕ) : Prop where
  pass : ∀ j < K, maxLine * j < n → maxLine * j + readcnt j ≤ maxObjectSize
  fail : ∀ j, K ≤ j → maxLine * j < n → maxObjectSize < maxLine * K + readcnt j
  fits : min (maxLine * K) n ≤ maxObjectSize

variable {n K k : ℕ} {R : List UInt8}

theorem gathers_iff_stored : Gathers n readcnt ↔ ∀ R : List UInt8, R.length = n →
    (stored readcnt (n + 1) 0 R 0).length ≤ maxObjectSize ∧
    stored readcnt (n + 1) 0 R 0 <+: R := by
  have hloop : ∀ R data : List UInt8, R.length = n → data.length = maxObjectSize →
      recvLoop readcnt (n + 1) 0 R data 0 =
        if (stored readcnt (n + 1) 0 R 0).length ≤ maxObjectSize then
          some (stored readcnt (n + 1) 0 R 0 ++
            data.drop (stored readcnt (n + 1) 0 R 0).length,
            (stored readcnt (n + 1) 0 R 0).length, R)
        else none := by
    intro R data hR hdata
    have h := recvLoop_eq readcnt 0 [] data (Nat.lt_succ_of_le hR.le)
    rwa [List.length_nil, List.nil_append, List.nil_append, Nat.zero_add, hdata] at h
  constructor
  · intro h R hR
    obtain ⟨hsome, hstates⟩ := h R (List.replicate maxObjectSize 0) hR List.length_replicate
    rw [hloop R _ hR List.length_replicate] at hsome
    split at hsome
    · next hfit =>
      refine ⟨hfit, ?_⟩
      have hend := hloop R _ hR (List.length_replicate (a := (0 : UInt8)))
      rw [if_pos hfit] at hend
      have hlast := hstates _ (recvLoop_last hend)
      rwa [List.take_left] at hlast
    · cases hsome
  · intro h R data hR hdata
    obtain ⟨hfit, hprefix⟩ := h R hR
    refine ⟨?_, fun st hst => ?_⟩
    · rw [hloop R data hR hdata, if_pos hfit]
      rfl
    · exact (recvStates_take [] st hst).trans hprefix

theorem StopsAt.stored (h : StopsAt readcnt n K) (hR : R.length = n) :
    Cache.stored readcnt (n + 1) 0 R 0 = R.take (maxLine * K) := by
  rcases Nat.lt_or_ge (maxLine * K) n with hlt | hge
  · have hK : K ≤ n := by
      simp only [maxLine] at hlt
      omega
    have hfuel : n + 1 = K + (n + 1 - K) := by omega
    rw [hfuel, stored_pass (hlt.le.trans hR.ge), stored_fail, List.append_nil]
    · intro j hj
      rw [List.length_drop, hR] at hj
      rw [Nat.zero_add, Nat.zero_add]
      refine h.fail (K + j) (Nat.le_add_right K j) ?_
      rw [Nat.mul_add]
      omega
    · intro j hj
      rw [Nat.zero_add, Nat.zero_add]
      exact h.pass j hj (lt_of_le_of_lt (Nat.mul_le_mul_left maxLine hj.le) hlt)
  · have hguards : GuardsPass readcnt 0 0 R.length := by
      intro j hj
      rw [hR] at hj
      rw [Nat.zero_add, Nat.zero_add]
      exact h.pass j (Nat.lt_of_mul_lt_mul_left (lt_of_lt_of_le hj hge)) hj
    rw [stored_eq (Nat.lt_succ_of_le hR.le) hguards, List.take_of_length_le (hR.le.trans hge)]

/-- **A hole**: a chunk that is stored after one was skipped. -/
theorem stored_hole (hKk : K < k) (hk : maxLine * k < n)
    (hpass : ∀ j < K, maxLine * j + readcnt j ≤ maxObjectSize)
    (hfail : ∀ j, K ≤ j → j < k → maxObjectSize < maxLine * K + readcnt j)
    (hguard : maxLine * K + readcnt k ≤ maxObjectSize) :
    ∃ R : List UInt8, R.length = n ∧ ¬stored readcnt (n + 1) 0 R 0 <+: R := by
  refine ⟨List.replicate (maxLine * k) 0 ++ List.replicate (n - maxLine * k) 1, ?_, ?_⟩
  · rw [List.length_append, List.length_replicate, List.length_replicate]
    omega
  set R : List UInt8 := List.replicate (maxLine * k) 0 ++ List.replicate (n - maxLine * k) 1
    with hR
  have hKn : maxLine * K < maxLine * k := Nat.mul_lt_mul_of_pos_left hKk (by decide)
  have hlen : R.length = n := by
    rw [hR, List.length_append, List.length_replicate, List.length_replicate]
    omega
  have hfuel : n + 1 = K + ((k - K) + (n - k + 1)) := by
    simp only [maxLine] at hk
    omega
  have hskip : maxLine * K + maxLine * (k - K) = maxLine * k := by
    rw [← Nat.mul_add, Nat.add_sub_cancel' hKk.le]
  have hdrop : R.drop (maxLine * k) = List.replicate (n - maxLine * k) 1 := by
    rw [hR, List.drop_left' List.length_replicate]
  rintro ⟨u, hu⟩
  rw [hfuel, stored_pass (by omega), Nat.zero_add, stored_skip, List.drop_drop, hskip, hdrop,
    Nat.zero_add, Nat.add_sub_cancel' hKk.le, stored, if_pos hguard] at hu
  · -- the byte after those of the first `K` chunks
    have hbyte := congrArg (fun l => l[maxLine * K]?) hu
    have htake : (R.take (maxLine * K)).length = maxLine * K := by
      rw [List.length_take]
      omega
    have hzero : R[maxLine * K]? = some 0 := by
      rw [hR, List.getElem?_append_left (by rwa [List.length_replicate]),
        List.getElem?_replicate_of_lt hKn]
    have hone : (List.replicate (n - maxLine * k) (1 : UInt8)).take maxLine =
        1 :: List.replicate (min maxLine (n - maxLine * k) - 1) 1 := by
      rw [List.take_replicate, ← List.replicate_succ]
      congr 1
      simp only [maxLine] at hk ⊢
      omega
    simp only [hone, List.append_assoc, List.cons_append] at hbyte
    rw [List.getElem?_append_right htake.le, htake, Nat.sub_self, hzero,
      List.getElem?_cons_zero] at hbyte
    exact absurd (Option.some.inj hbyte) (by decide)
  · intro j hj
    rw [Nat.zero_add]
    exact hfail (K + j) (Nat.le_add_right K j) (by omega)
  · intro j hj
    rw [Nat.zero_add, Nat.zero_add]
    exact hpass j hj

/-- Where the guards first fail, they fail from there on. -/
theorem Gathers.stopsAt (h : Gathers n readcnt) : ∃ K, StopsAt readcnt n K := by
  have hstored := gathers_iff_stored.mp h
  obtain ⟨hfit, -⟩ := hstored (List.replicate n 0) List.length_replicate
  by_cases hall : ∀ j, maxLine * j < n → maxLine * j + readcnt j ≤ maxObjectSize
  · have hguards : GuardsPass readcnt 0 0 (List.replicate n (0 : UInt8)).length := by
      intro j hj
      rw [List.length_replicate] at hj
      rw [Nat.zero_add, Nat.zero_add]
      exact hall j hj
    rw [stored_eq (by rw [List.length_replicate]; omega) hguards, List.length_replicate] at hfit
    refine ⟨n, fun j _ => hall j, fun j hj hjn => ?_, (min_le_right _ _).trans hfit⟩
    simp only [maxLine] at hjn
    omega
  · simp only [not_forall, Nat.not_le] at hall
    classical
    obtain ⟨hKn, hK⟩ := Nat.find_spec hall
    have hmin := fun j (hj : j < Nat.find hall) => Nat.find_min hall hj
    generalize Nat.find hall = K at hKn hK hmin
    have hpass : ∀ j < K, maxLine * j + readcnt j ≤ maxObjectSize := by
      intro j hj
      by_contra hbad
      have hjn := (Nat.mul_le_mul_left maxLine hj.le).trans_lt hKn
      exact hmin j hj ⟨hjn, Nat.not_le.mp hbad⟩
    refine ⟨K, fun j hj _ => hpass j hj, fun j => ?_, ?_⟩
    · induction j using Nat.strong_induction_on with
      | _ j ih =>
        intro hKj hjn
        by_contra hguard
        have hlt : K < j := by
          refine lt_of_le_of_ne hKj ?_
          rintro rfl
          exact hguard hK
        have hfail : ∀ i, K ≤ i → i < j → maxObjectSize < maxLine * K + readcnt i :=
          fun i hKi hij => ih i hij hKi ((Nat.mul_le_mul_left maxLine hij.le).trans_lt hjn)
        obtain ⟨R, hR, hhole⟩ := stored_hole hlt hjn hpass hfail (Nat.not_lt.mp hguard)
        exact hhole (hstored R hR).2
    · have hfuel : n + 1 = K + (n + 1 - K) := by
        simp only [maxLine] at hKn
        omega
      rw [hfuel, stored_pass (by rw [List.length_replicate]; exact hKn.le)
        (fun j hj => by rw [Nat.zero_add, Nat.zero_add]; exact hpass j hj),
        List.length_append, List.length_take, List.length_replicate] at hfit
      omega

/-- **The buffer is safe** for the responses of a length, and holds a prefix of each,
exactly when the guards stop passing at some round and the chunks before it fit. -/
theorem gathers_iff (n : ℕ) (readcnt : ℕ → ℕ) :
    Gathers n readcnt ↔ ∃ K, StopsAt readcnt n K := by
  refine ⟨Gathers.stopsAt, fun ⟨K, h⟩ => gathers_iff_stored.mpr fun R hR => ?_⟩
  rw [h.stored hR]
  refine ⟨?_, List.take_prefix _ _⟩
  rw [List.length_take, hR]
  exact h.fits

/-- If no guard fails, a response that is longer than the array is copied past its end. -/
theorem recvLoop_overrun {data : List UInt8} (hR : R.length = n)
    (hguards : GuardsPass readcnt 0 0 n) (hlong : data.length < n) :
    recvLoop readcnt (n + 1) 0 R data 0 = none := by
  subst hR
  have h := recvLoop_eq readcnt 0 [] data (Nat.lt_succ_self R.length)
  rwa [List.length_nil, stored_eq (Nat.lt_succ_self R.length) hguards,
    if_neg (Nat.not_le.mpr hlong)] at h

/-- One byte more than the buffer holds, with no reader at work. -/
theorem gathers_overrun :
    recvLoop (fun _ => 0) (102401 + 1) 0 (List.replicate 102401 0)
      (List.replicate maxObjectSize 0) 0 = none ∧
    ¬Gathers 102401 fun _ => 0 := by
  have hguards : GuardsPass (fun _ => 0) 0 0 102401 := by
    intro j hj
    simp only [maxLine, maxObjectSize] at hj ⊢
    omega
  have hlong : (List.replicate maxObjectSize (0 : UInt8)).length < 102401 := by
    rw [List.length_replicate]
    decide
  have hloop : recvLoop (fun _ => 0) (102401 + 1) 0 (List.replicate 102401 0)
      (List.replicate maxObjectSize 0) 0 = none :=
    recvLoop_overrun List.length_replicate hguards hlong
  refine ⟨hloop, fun h => ?_⟩
  obtain ⟨hsome, -⟩ := h (List.replicate 102401 0) (List.replicate maxObjectSize 0)
    List.length_replicate List.length_replicate
  rw [hloop] at hsome
  cases hsome

end Cache

end SysProgLab
