import StraightHttpd.Httpd.Web
import StraightHttpd.Lib.Runs
import StraightHttpd.Lib.CText
import StraightHttpd.UrlDecode

/-! # Form bodies (`http_web.c`)

`WEB_OnFormReceived` collects the body in the send buffer, takes out the pairs that are complete, and
moves the rest to the front. `pairCalls` and `formCalls` are the calls of `TAG_Setter` on the way. A
pair comes out as it was sent when nothing in it is escaped and no stale byte follows it.
-/

set_option autoImplicit false

namespace StraightHttpd
open CMemory

/-! ## The calls of `TAG_Setter` -/

/-- The memory at the names and the values that the loop of `ExtractFormData` hands to `TAG_Setter`. -/
def pairCalls : ℕ → Bytes → (p : ℕ) → (nSize : ℤ) → List (Bytes × Bytes)
  | 0, _, _, _ => []
  | n + 1, m, p, nSize =>
    if peek m p ≠ 0 ∧ (p : ℤ) < nSize then
      match strchr (m.drop p) 38, strchr (m.drop p) 61 with
      | some ve, some ne =>
        let m := urlDecodeAt (urlDecodeAt (poke (poke m (p + ne) [0]) (p + ve) [0]) p) (p + ne + 1)
        (m.drop p, m.drop (p + ne + 1)) :: pairCalls n m (p + ve + 1) nSize
      | _, _ => []
    else []

/-- The calls of `ExtractFormData`, with the one for the last pair of the body. -/
def formCalls (d : Device) (buffer : Bytes) (nSize nTotalRemain : ℤ) : List (Bytes × Bytes) :=
  let (_, m, p, ne) := extractPairs (buffer.length + 1) d buffer 0 nSize none
  pairCalls (buffer.length + 1) buffer 0 nSize ++
    if nTotalRemain > 0 then []
    else match ne with
      | some ne =>
        let m := urlDecodeAt (urlDecodeAt (poke m ne [0]) p) (ne + 1)
        [(m.drop p, m.drop (ne + 1))]
      | none => []

/-- What the calls make of the settings. -/
def applyCalls (d : Device) (calls : List (Bytes × Bytes)) : Device :=
  calls.foldl (fun d c => tagSetter d c.1 c.2) d

theorem extractPairs_device (n : ℕ) (d : Device) (m : Bytes) (p : ℕ) (nSize : ℤ) (ne : Option ℕ) :
    (extractPairs n d m p nSize ne).1 = applyCalls d (pairCalls n m p nSize) := by
  induction n generalizing d m p ne with
  | zero => rfl
  | succ n ih =>
    rw [extractPairs, pairCalls]
    split_ifs
    · cases strchr (m.drop p) 38 with
      | none => rfl
      | some ve =>
        cases strchr (m.drop p) 61 with
        | none => rfl
        | some ne' => exact ih _ _ _ _
    · rfl

/-- The settings change by these calls only. -/
theorem extractFormData_device (d : Device) (buffer : Bytes) (nSize nTotalRemain : ℤ) :
    (extractFormData d buffer nSize nTotalRemain).1 =
      applyCalls d (formCalls d buffer nSize nTotalRemain) := by
  have hpairs := extractPairs_device (buffer.length + 1) d buffer 0 nSize none
  unfold extractFormData formCalls
  generalize extractPairs (buffer.length + 1) d buffer 0 nSize none = r at hpairs
  obtain ⟨d', m, p, ne⟩ := r
  have hd : d' = applyCalls d (pairCalls (buffer.length + 1) buffer 0 nSize) := hpairs
  simp only
  split_ifs
  · rw [List.append_nil]
    exact hd
  · cases ne with
    | none =>
      rw [List.append_nil]
      exact hd
    | some ne =>
      rw [hd]
      unfold applyCalls
      rw [List.foldl_append]
      rfl

/-! ## The text of a body -/

/-- The items of a body with `&` between them. -/
def joined : List Bytes → Bytes
  | [] => []
  | [a] => a
  | a :: b :: l => a ++ 38 :: joined (b :: l)

/-- A name and a value with `=` between them. -/
def field (c : Bytes × Bytes) : Bytes := c.1 ++ 61 :: c.2

/-- A text without the bytes that have a meaning in a body. -/
def Plain (t : Bytes) : Prop := ∀ b ∈ t, b ≠ 0 ∧ b ≠ 38 ∧ b ≠ 61 ∧ b ≠ 37

/-- The part of a text in front of which everything is known: the text is that of the first item, or goes
on behind it. -/
theorem prefix_joined {D a : Bytes} {l : List Bytes} (h : D <+: joined (a :: l)) :
    D <+: a ∨ ∃ D', D = a ++ 38 :: D' ∧ l ≠ [] ∧ D' <+: joined l := by
  cases l with
  | nil => exact .inl h
  | cons b l =>
    have ha : a <+: joined (a :: b :: l) := List.prefix_append a _
    rcases List.prefix_or_prefix_of_prefix h ha with hD | ⟨u, rfl⟩
    · exact .inl hD
    · have hu : u <+: 38 :: joined (b :: l) := (List.prefix_append_right_inj a).mp h
      cases u with
      | nil => exact .inl (by rw [List.append_nil])
      | cons c u =>
        obtain ⟨rfl, hrest⟩ := List.cons_prefix_cons.mp hu
        exact .inr ⟨u, rfl, List.cons_ne_nil b l, hrest⟩

theorem joined_ne_nil {l : List Bytes} (hl : l ≠ []) (h : ∀ a ∈ l, a ≠ []) : joined l ≠ [] := by
  match l, hl, h with
  | [a], _, h => exact h a List.mem_cons_self
  | a :: b :: l, _, _ => exact List.append_ne_nil_of_right_ne_nil a (List.cons_ne_nil _ _)

theorem joined_cons_cons (a b : Bytes) (l : List Bytes) :
    joined (a :: b :: l) = a ++ 38 :: joined (b :: l) := rfl

theorem field_ne_nil (c : Bytes × Bytes) : field c ≠ [] :=
  List.append_ne_nil_of_right_ne_nil _ (List.cons_ne_nil _ _)

theorem Plain.not_mem {t : Bytes} (h : Plain t) : (0 : UInt8) ∉ t ∧ (38 : UInt8) ∉ t ∧ (61 : UInt8) ∉ t ∧
    (37 : UInt8) ∉ t :=
  ⟨fun hb => (h 0 hb).1 rfl, fun hb => (h 38 hb).2.1 rfl, fun hb => (h 61 hb).2.2.1 rfl,
    fun hb => (h 37 hb).2.2.2 rfl⟩

theorem not_mem_field {c : Bytes × Bytes} (hn : Plain c.1) (hv : Plain c.2) :
    (0 : UInt8) ∉ field c ∧ (38 : UInt8) ∉ field c := by
  have h1 := hn.not_mem
  have h2 := hv.not_mem
  simp [field, h1, h2]

/-! ## The loop of `ExtractFormData` -/

/-- A string without `%` is decoded to itself. -/
theorem urlDecodeAt_plain {b t z : Bytes} (ht : Plain t) (hz : (37 : UInt8) ∉ cstr z) :
    urlDecodeAt (b ++ (t ++ z)) b.length = b ++ (t ++ z) := by
  have h0 := ht.not_mem
  have h37 : (37 : UInt8) ∉ cstr (t ++ z) := by
    rw [cstr_append h0.1]
    simp [h0, hz]
  rw [urlDecodeAt, List.take_left, List.drop_left, urlDecode_plain h37]

/-- The memory after a pair is taken out: NULs in the place of the two marks. -/
theorem pair_memory {n v : Bytes} (hn : Plain n) (hv : Plain v) (b t : Bytes) :
    urlDecodeAt (urlDecodeAt (poke (poke (b ++ (n ++ 61 :: (v ++ 38 :: t))) (b.length + n.length) [0])
        (b.length + (n.length + 1 + v.length)) [0]) b.length) (b.length + n.length + 1) =
      b ++ (n ++ 0 :: (v ++ 0 :: t)) := by
  have h1 := poke_append (b ++ n) (v ++ 38 :: t) 61 0
  have h2 := poke_append (b ++ (n ++ 0 :: v)) t 38 0
  have h3 := @urlDecodeAt_plain b n (0 :: (v ++ 0 :: t)) hn (List.not_mem_nil)
  have h4 := @urlDecodeAt_plain (b ++ (n ++ [0])) v (0 :: t) hv (List.not_mem_nil)
  simp only [List.append_assoc, List.cons_append, List.nil_append, List.length_append, List.length_cons,
    List.length_nil, Nat.zero_add] at h1 h2 h3 h4 ⊢
  rw [h1, show b.length + (n.length + 1 + v.length) = b.length + (n.length + (v.length + 1)) by omega, h2, h3,
    show b.length + n.length + 1 = b.length + (n.length + 1) by omega, h4]

theorem strchr_append {c : UInt8} {t : Bytes} (hc : c ≠ 0) (h0 : (0 : UInt8) ∉ t) (ht : c ∉ t) (u : Bytes) :
    strchr (t ++ c :: u) c = some t.length := by
  rw [strchr, cstr_append h0, cstr_cons hc, find_append ht]

theorem strchr_none {c : UInt8} {m : Bytes} (h : c ∉ cstr m) : strchr m c = none := find_none h

section Loop

variable {b : Bytes} {nSize : ℤ}

/-- A complete pair is taken out. -/
theorem pairCalls_field {c : Bytes × Bytes} (hn : Plain c.1) (hv : Plain c.2) (hne : c.1 ≠ [])
    (hp : (b.length : ℤ) < nSize) (k : ℕ) (t : Bytes) :
    pairCalls (k + 1) (b ++ (field c ++ 38 :: t)) b.length nSize =
        (c.1 ++ 0 :: (c.2 ++ 0 :: t), c.2 ++ 0 :: t) ::
          pairCalls k (b ++ (c.1 ++ 0 :: (c.2 ++ [0])) ++ t) (b ++ (c.1 ++ 0 :: (c.2 ++ [0]))).length nSize ∧
      ∀ d ne, ∃ d' ne', extractPairs (k + 1) d (b ++ (field c ++ 38 :: t)) b.length nSize ne =
        extractPairs k d' (b ++ (c.1 ++ 0 :: (c.2 ++ [0])) ++ t) (b ++ (c.1 ++ 0 :: (c.2 ++ [0]))).length nSize
          ne' := by
  obtain ⟨n, v⟩ := c
  obtain ⟨hn0, hn38, hn61, -⟩ := hn.not_mem
  obtain ⟨hv0, hv38, -, -⟩ := hv.not_mem
  have hdrop : (b ++ (field (n, v) ++ 38 :: t)).drop b.length = field (n, v) ++ 38 :: t := List.drop_left
  have h38 : strchr (field (n, v) ++ 38 :: t) 38 = some (n.length + 1 + v.length) := by
    rw [strchr_append (by decide) (by simp [field, hn0, hv0]) (by simp [field, hn38, hv38])]
    simp only [field, List.length_append, List.length_cons, Option.some.injEq]
    omega
  have h61 : strchr (field (n, v) ++ 38 :: t) 61 = some n.length := by
    rw [field, List.append_assoc]
    exact strchr_append (by decide) hn0 hn61 _
  have hpeek : peek (b ++ (field (n, v) ++ 38 :: t)) b.length ≠ 0 := by
    cases n with
    | nil => exact absurd rfl hne
    | cons a n =>
      have ha : peek (b ++ (field (a :: n, v) ++ 38 :: t)) b.length = a := by
        simp [peek, field]
      rw [ha]
      exact (hn a List.mem_cons_self).1
  have hmem := pair_memory hn hv b t
  have hshape : b ++ (field (n, v) ++ 38 :: t) = b ++ (n ++ 61 :: (v ++ 38 :: t)) := by
    simp [field]
  have hafter : b ++ (n ++ 0 :: (v ++ 0 :: t)) = b ++ (n ++ 0 :: (v ++ [0])) ++ t := by simp
  have hlength : b.length + (n.length + 1 + v.length) + 1 = (b ++ (n ++ 0 :: (v ++ [0]))).length := by
    simp only [List.length_append, List.length_cons, List.length_nil]
    omega
  have hname : (b ++ (n ++ 0 :: (v ++ 0 :: t))).drop b.length = n ++ 0 :: (v ++ 0 :: t) := List.drop_left
  have hvalue : (b ++ (n ++ 0 :: (v ++ 0 :: t))).drop (b.length + n.length + 1) = v ++ 0 :: t := by
    rw [Nat.add_assoc, ← List.drop_drop, List.drop_left, ← List.drop_drop, List.drop_left]
    rfl
  constructor
  · rw [pairCalls, if_pos ⟨hpeek, hp⟩, hdrop, h38, h61]
    simp only
    rw [hshape, hmem, hname, hvalue, hafter, hlength]
  · intro d ne
    rw [extractPairs, if_pos ⟨hpeek, hp⟩, hdrop, h38, h61]
    simp only
    rw [hshape]
    unfold setPair
    simp only
    rw [hmem, hafter, hlength]
    exact ⟨_, _, rfl⟩

/-- A part without `&` or without `=` ends the loop. -/
theorem pairCalls_stuck {a : UInt8} {s : Bytes} (ha : a ≠ 0) (hp : (b.length : ℤ) < nSize)
    (hs : strchr (a :: s) 38 = none ∨ strchr (a :: s) 61 = none) (k : ℕ) :
    pairCalls (k + 1) (b ++ a :: s) b.length nSize = [] ∧ ∀ d ne,
      extractPairs (k + 1) d (b ++ a :: s) b.length nSize ne =
        (d, b ++ a :: s, b.length, (strchr (a :: s) 61).map (b.length + ·)) := by
  have hdrop : (b ++ a :: s).drop b.length = a :: s := List.drop_left
  have hpeek : peek (b ++ a :: s) b.length ≠ 0 := by
    have hpeek : peek (b ++ a :: s) b.length = a := by simp [peek]
    rw [hpeek]
    exact ha
  constructor
  · rw [pairCalls, if_pos ⟨hpeek, hp⟩, hdrop]
    rcases hs with hs | hs
    · rw [hs]
    · rw [hs]
      cases strchr (a :: s) 38 <;> rfl
  · intro d ne
    rw [extractPairs, if_pos ⟨hpeek, hp⟩, hdrop]
    rcases hs with hs | hs
    · rw [hs]
    · rw [hs]
      cases strchr (a :: s) 38 <;> rfl

/-- Behind the data the loop ends. -/
theorem pairCalls_end (hp : nSize ≤ b.length) (k : ℕ) (z : Bytes) :
    pairCalls (k + 1) (b ++ z) b.length nSize = [] ∧ ∀ d ne,
      extractPairs (k + 1) d (b ++ z) b.length nSize ne = (d, b ++ z, b.length, ne) := by
  have hno : ¬ (peek (b ++ z) b.length ≠ 0 ∧ (b.length : ℤ) < nSize) := fun h => absurd h.2 (not_lt.mpr hp)
  constructor
  · rw [pairCalls, if_neg hno]
  · intro d ne
    rw [extractPairs, if_neg hno]

end Loop

/-- A name and a value as C strings. -/
def callText (c : Bytes × Bytes) : Bytes × Bytes := (cstr c.1, cstr c.2)

theorem callText_pair {c : Bytes × Bytes} (hn : Plain c.1) (hv : Plain c.2) (t u : Bytes) :
    callText (c.1 ++ 0 :: t, c.2 ++ 0 :: u) = c := by
  rw [callText, cstr_append_zero, cstr_append_zero, cstr_of_no_nul hn.not_mem.1, cstr_of_no_nul hv.not_mem.1]

/-! ## A body on its way through the buffer -/

/-- The items of a body: pairs, and behind them what has no `=`. -/
def items (pairs : List (Bytes × Bytes)) (bares : List Bytes) : List Bytes := pairs.map field ++ bares

/-- Every pair has a name, and nothing has a meaning but the marks between the parts. -/
structure PlainBody (pairs : List (Bytes × Bytes)) (bares : List Bytes) : Prop where
  pairs : ∀ c ∈ pairs, Plain c.1 ∧ Plain c.2 ∧ c.1 ≠ []
  bares : ∀ a ∈ bares, Plain a ∧ a ≠ []

/-- Pairs with the `&` behind each. -/
def doneText (pairs : List (Bytes × Bytes)) : Bytes := pairs.flatMap fun c => field c ++ [38]

theorem items_ne_nil {pairs : List (Bytes × Bytes)} {bares : List Bytes} (h : PlainBody pairs bares) :
    ∀ a ∈ items pairs bares, a ≠ [] := by
  intro a ha
  rcases List.mem_append.mp ha with ha | ha
  · obtain ⟨c, -, rfl⟩ := List.mem_map.mp ha
    exact field_ne_nil c
  · exact (h.bares a ha).2

theorem PlainBody.drop {pairs : List (Bytes × Bytes)} {bares : List Bytes} (h : PlainBody pairs bares) (i : ℕ) :
    PlainBody (pairs.drop i) bares :=
  ⟨fun c hc => h.pairs c (List.mem_of_mem_drop hc), h.bares⟩

theorem not_mem_joined {l : List Bytes} {d : UInt8} (hd : d ≠ 38) (h : ∀ a ∈ l, d ∉ a) : d ∉ joined l := by
  induction l with
  | nil => exact List.not_mem_nil
  | cons a l ih =>
    have ha := h a List.mem_cons_self
    have hl := ih fun b hb => h b (List.mem_cons_of_mem _ hb)
    cases l with
    | nil => exact ha
    | cons b l =>
      rw [joined_cons_cons]
      simp [ha, hl, hd]

/-- What the loop makes of the data `D` in front of the bytes `z`: the first `i` pairs are taken out, and
`D'` is left behind `b'`. -/
structure Taken (pairs : List (Bytes × Bytes)) (bares : List Bytes) (b D z : Bytes) (calls : List (Bytes × Bytes))
    (r : Device × Bytes × ℕ × Option ℕ) (i : ℕ) (b' D' : Bytes) : Prop where
  count : i ≤ pairs.length
  calls : calls.map callText = pairs.take i
  data : D = doneText (pairs.take i) ++ D'
  left : D' <+: joined (items (pairs.drop i) bares) ∧ items (pairs.drop i) bares ≠ []
  memory : r.2.1 = b' ++ (D' ++ z)
  position : r.2.2.1 = b'.length
  length : b'.length + D'.length = b.length + D.length
  marks : (38 : UInt8) ∉ b → (38 : UInt8) ∉ b'
  found : D' ≠ [] → r.2.2.2 = (strchr (D' ++ z) 61).map (b'.length + ·) ∧
    (pairs.drop i = [] ∨ ∃ c l, pairs.drop i = c :: l ∧ D' <+: field c)

theorem extractPairs_taken {bares : List Bytes} {z : Bytes} (hz : (38 : UInt8) ∉ cstr z)
    (hz61 : bares ≠ [] → (61 : UInt8) ∉ cstr z) (k : ℕ) {pairs : List (Bytes × Bytes)}
    (hbody : PlainBody pairs bares) (hitems : items pairs bares ≠ []) (b D : Bytes)
    (hD : D <+: joined (items pairs bares)) (hk : D.length < k) (d : Device) (ne : Option ℕ) :
    ∃ i b' D', Taken pairs bares b D z
      (pairCalls k (b ++ (D ++ z)) b.length ((b.length + D.length : ℕ) : ℤ))
      (extractPairs k d (b ++ (D ++ z)) b.length ((b.length + D.length : ℕ) : ℤ) ne) i b' D' := by
  induction k generalizing pairs b D d ne with
  | zero => exact absurd hk (Nat.not_lt_zero _)
  | succ k ih =>
    cases D with
    | nil =>
      obtain ⟨hcalls, hextract⟩ := @pairCalls_end b ((b.length + 0 : ℕ) : ℤ) (le_refl _) k z
      refine ⟨0, b, [], Nat.zero_le _, ?_, rfl, ⟨List.nil_prefix, hitems⟩, ?_, ?_, rfl, id, fun h => absurd rfl h⟩
      · exact congrArg (List.map callText) hcalls
      · exact congrArg (fun r => r.2.1) (hextract d ne)
      · exact congrArg (fun r => r.2.2.1) (hextract d ne)
    | cons a D =>
      have hp : (b.length : ℤ) < ((b.length + (a :: D).length : ℕ) : ℤ) := by
        rw [List.length_cons]
        omega
      -- the loop ends here
      have hstop (ha : a ≠ 0) (hs : strchr (a :: D ++ z) 38 = none ∨ strchr (a :: D ++ z) 61 = none)
          (hleft : pairs.drop 0 = [] ∨ ∃ c l, pairs.drop 0 = c :: l ∧ a :: D <+: field c) :
          ∃ i b' D', Taken pairs bares b (a :: D) z
            (pairCalls (k + 1) (b ++ (a :: D ++ z)) b.length ((b.length + (a :: D).length : ℕ) : ℤ))
            (extractPairs (k + 1) d (b ++ (a :: D ++ z)) b.length ((b.length + (a :: D).length : ℕ) : ℤ) ne)
            i b' D' := by
        obtain ⟨hcalls, hextract⟩ := pairCalls_stuck (s := D ++ z) ha hp hs k
        refine ⟨0, b, a :: D, Nat.zero_le _, ?_, rfl, ⟨hD, hitems⟩, ?_, ?_, rfl, id, fun _ => ⟨?_, hleft⟩⟩
        · exact congrArg (List.map callText) hcalls
        · exact congrArg (fun r => r.2.1) (hextract d ne)
        · exact congrArg (fun r => r.2.2.1) (hextract d ne)
        · exact congrArg (fun r => r.2.2.2) (hextract d ne)
      cases pairs with
      | nil =>
        have hplain : ∀ e : UInt8, e ≠ 38 → (∀ c ∈ bares, e ∉ c) → e ∉ a :: D := fun e he hc h =>
          not_mem_joined he hc (hD.subset h)
        have h0 := hplain 0 (by decide) fun c hc => ((hbody.bares c hc).1.not_mem).1
        have h61 := hplain 61 (by decide) fun c hc => ((hbody.bares c hc).1.not_mem).2.2.1
        refine hstop (fun ha => h0 (by simp [ha])) (.inr (strchr_none ?_)) (.inl rfl)
        rw [cstr_append h0]
        exact List.not_mem_append h61 (hz61 hitems)
      | cons c pairs =>
        obtain ⟨hn, hv, hne⟩ := hbody.pairs c List.mem_cons_self
        obtain ⟨h0, h38⟩ := not_mem_field hn hv
        rcases prefix_joined (l := items pairs bares) hD with hpart | ⟨D₁, hD₁, hitems₁, hbegins₁⟩
        · have h0' : (0 : UInt8) ∉ a :: D := fun h => h0 (hpart.subset h)
          refine hstop (fun ha => h0' (by simp [ha])) (.inl (strchr_none ?_)) (.inr ⟨c, pairs, rfl, hpart⟩)
          rw [cstr_append h0']
          exact List.not_mem_append (fun h => h38 (hpart.subset h)) hz
        · have hlength : (a :: D).length = (field c).length + (1 + D₁.length) := by
            rw [hD₁, List.length_append, List.length_cons]
            omega
          have hfield : (field c).length = c.1.length + (1 + c.2.length) := by
            rw [field, List.length_append, List.length_cons]
            omega
          obtain ⟨hcalls, hextract⟩ := pairCalls_field hn hv hne hp k (D₁ ++ z)
          obtain ⟨d', ne', hextract⟩ := hextract d ne
          have hb₁ : (b ++ (c.1 ++ 0 :: (c.2 ++ [0]))).length + D₁.length = b.length + (a :: D).length := by
            simp only [List.length_append, List.length_cons, List.length_nil] at hlength ⊢
            omega
          have hshape : a :: D ++ z = field c ++ 38 :: (D₁ ++ z) := by
            rw [hD₁, List.append_assoc, List.cons_append]
          have hbody₁ : PlainBody pairs bares :=
            ⟨fun c hc => hbody.pairs c (List.mem_cons_of_mem _ hc), hbody.bares⟩
          obtain ⟨i, b', D', h⟩ := ih hbody₁ hitems₁ (b ++ (c.1 ++ 0 :: (c.2 ++ [0]))) D₁ hbegins₁ (by omega) d' ne'
          rw [hb₁] at h
          rw [hshape, hcalls, hextract]
          refine ⟨i + 1, b', D', Nat.succ_le_succ h.count, ?_, ?_, h.left, h.memory, h.position,
            h.length.trans hb₁, fun hmarks => h.marks ?_, h.found⟩
          · rw [List.map_cons, h.calls, callText_pair hn hv]
            rfl
          · rw [hD₁, h.data]
            simp [doneText]
          · have h1 := hn.not_mem
            have h2 := hv.not_mem
            simp [hmarks, h1, h2]

theorem joined_split {pairs : List (Bytes × Bytes)} {bares : List Bytes} (i : ℕ)
    (h : items (pairs.drop i) bares ≠ []) :
    joined (items pairs bares) = doneText (pairs.take i) ++ joined (items (pairs.drop i) bares) := by
  induction i generalizing pairs with
  | zero => rfl
  | succ i ih =>
    cases pairs with
    | nil => rfl
    | cons c pairs =>
      have hrest : items pairs bares ≠ [] := by
        intro hnil
        obtain ⟨hpairs, hbares⟩ := List.append_eq_nil_iff.mp hnil
        rw [List.map_eq_nil_iff.mp hpairs, hbares] at h
        exact h (by simp [items])
      obtain ⟨a, l, hal⟩ := List.exists_cons_of_ne_nil hrest
      have hcons : joined (items (c :: pairs) bares) = field c ++ 38 :: joined (items pairs bares) := by
        show joined (field c :: items pairs bares) = _
        rw [hal, joined_cons_cons]
      rw [hcons, ih h]
      simp [doneText]

/-! ## One call of `ExtractFormData` -/

section Extract

variable {pairs : List (Bytes × Bytes)} {bares : List Bytes} {d : Device} {D z : Bytes} {nTotalRemain : ℤ}

/-- What the loop leaves of the data. -/
theorem extract_taken (hbody : PlainBody pairs bares) (hitems : items pairs bares ≠ [])
    (hz : (38 : UInt8) ∉ cstr z) (hz61 : bares ≠ [] → (61 : UInt8) ∉ cstr z)
    (hD : D <+: joined (items pairs bares)) : ∃ i b' D', Taken pairs bares [] D z
      (pairCalls ((D ++ z).length + 1) (D ++ z) 0 D.length)
      (extractPairs ((D ++ z).length + 1) d (D ++ z) 0 D.length none) i b' D' := by
  have hk : D.length < (D ++ z).length + 1 := by
    rw [List.length_append]
    omega
  have h := extractPairs_taken hz hz61 ((D ++ z).length + 1) hbody hitems [] D hD hk d none
  rwa [List.length_nil, Nat.zero_add] at h

/-- While more of the body is to come, the complete pairs are handed over. -/
theorem extract_more {i : ℕ} {b' D' : Bytes} (h : Taken pairs bares [] D z
      (pairCalls ((D ++ z).length + 1) (D ++ z) 0 D.length)
      (extractPairs ((D ++ z).length + 1) d (D ++ z) 0 D.length none) i b' D')
    (hremain : nTotalRemain > 0) :
    (∃ d', extractFormData d (D ++ z) D.length nTotalRemain = (d', b' ++ (D' ++ z), (b'.length : ℤ))) ∧
      (formCalls d (D ++ z) D.length nTotalRemain).map callText = pairs.take i := by
  have hmemory := h.memory
  have hposition := h.position
  unfold extractFormData formCalls
  generalize extractPairs ((D ++ z).length + 1) d (D ++ z) 0 D.length none = r at hmemory hposition
  obtain ⟨d', m, p, ne⟩ := r
  simp only at hmemory hposition ⊢
  rw [hmemory, hposition, if_pos hremain, if_pos hremain, List.append_nil]
  exact ⟨⟨_, rfl⟩, h.calls⟩

/-- The last pair of a body, with a NUL behind it. -/
theorem last_memory {c : Bytes × Bytes} (hn : Plain c.1) (hv : Plain c.2) (b t : Bytes) :
    urlDecodeAt (urlDecodeAt (poke (b ++ (field c ++ 0 :: t)) (b.length + c.1.length) [0]) b.length)
        (b.length + c.1.length + 1) = b ++ (c.1 ++ 0 :: (c.2 ++ 0 :: t)) := by
  have h1 := poke_append (b ++ c.1) (c.2 ++ 0 :: t) 61 0
  have h2 := @urlDecodeAt_plain b c.1 (0 :: (c.2 ++ 0 :: t)) hn List.not_mem_nil
  have h3 := @urlDecodeAt_plain (b ++ (c.1 ++ [0])) c.2 (0 :: t) hv List.not_mem_nil
  simp only [field, List.append_assoc, List.cons_append, List.nil_append, List.length_append, List.length_cons,
    List.length_nil, Nat.zero_add] at h1 h2 h3 ⊢
  rw [h1, h2, show b.length + c.1.length + 1 = b.length + (c.1.length + 1) by omega, h3]

/-- With the last bytes of the body, all pairs are handed over. -/
theorem extract_last (hbody : PlainBody pairs bares) (hitems : items pairs bares ≠ [])
    (hD : D = joined (items pairs bares)) (t : Bytes) (hremain : ¬ nTotalRemain > 0) :
    (∃ d' m, extractFormData d (D ++ 0 :: t) D.length nTotalRemain = (d', m, (D.length : ℤ))) ∧
      (formCalls d (D ++ 0 :: t) D.length nTotalRemain).map callText = pairs := by
  obtain ⟨i, b', D', h⟩ := @extract_taken pairs bares d D (0 :: t) hbody hitems List.not_mem_nil
    (fun _ => List.not_mem_nil) (by rw [hD])
  -- what is left is the last pair, or what has no `=`
  have hD' : D' = joined (items (pairs.drop i) bares) := by
    have hdata := h.data
    rw [hD, joined_split i h.left.2] at hdata
    exact (List.append_cancel_left hdata).symm
  have hne : D' ≠ [] := by
    rw [hD']
    exact joined_ne_nil h.left.2 (items_ne_nil (hbody.drop i))
  obtain ⟨hfound, hlast⟩ := h.found hne
  have hmemory := h.memory
  have hposition := h.position
  have hcalls := h.calls
  unfold extractFormData formCalls
  generalize extractPairs ((D ++ 0 :: t).length + 1) d (D ++ 0 :: t) 0 D.length none = r
    at hmemory hposition hfound
  obtain ⟨d', m, p, ne⟩ := r
  simp only at hmemory hposition hfound ⊢
  rw [if_neg hremain, if_neg hremain, List.map_append, hcalls]
  rcases hlast with hnil | ⟨c, l, hcl, hpart⟩
  · have hbares : D' = joined bares := by
      rw [hD', hnil]
      rfl
    have hplain : ∀ e : UInt8, e ≠ 38 → (∀ a ∈ bares, e ∉ a) → e ∉ D' := by
      intro e he ha
      rw [hbares]
      exact not_mem_joined he ha
    have h0 := hplain 0 (by decide) fun a ha => ((hbody.bares a ha).1.not_mem).1
    have h61 := hplain 61 (by decide) fun a ha => ((hbody.bares a ha).1.not_mem).2.2.1
    have hnone : strchr (D' ++ 0 :: t) 61 = none := strchr_none (by
      rw [cstr_append h0, cstr_zero_cons, List.append_nil]
      exact h61)
    rw [hfound, hnone, Option.map_none]
    refine ⟨⟨_, _, rfl⟩, ?_⟩
    simp only [List.map_nil, List.append_nil]
    exact List.take_of_length_le (List.drop_eq_nil_iff.mp hnil)
  · obtain ⟨hn, hv, -⟩ := hbody.pairs c (List.mem_of_mem_drop (by rw [hcl]; exact List.mem_cons_self))
    obtain ⟨h0, -⟩ := hn.not_mem
    have hsame : D' = field c ∧ items l bares = [] := by
      rw [hcl] at hD'
      cases hl : items l bares with
      | nil =>
        have hone : items (c :: l) bares = [field c] := congrArg (field c :: ·) hl
        rw [hone] at hD'
        exact ⟨hD', rfl⟩
      | cons a rest =>
        have hmore : items (c :: l) bares = field c :: a :: rest := congrArg (field c :: ·) hl
        rw [hmore, joined_cons_cons] at hD'
        have hle := hpart.length_le
        rw [hD', List.length_append, List.length_cons] at hle
        omega
    have hl : l = [] := List.map_eq_nil_iff.mp (List.append_eq_nil_iff.mp hsame.2).1
    have hmark : strchr (D' ++ 0 :: t) 61 = some c.1.length := by
      rw [hsame.1, field, List.append_assoc]
      exact strchr_append (by decide) h0 hn.not_mem.2.2.1 _
    rw [hfound, hmark, Option.map_some]
    refine ⟨⟨_, _, rfl⟩, ?_⟩
    have hvalue : (b' ++ (c.1 ++ 0 :: (c.2 ++ 0 :: t))).drop (b'.length + c.1.length + 1) = c.2 ++ 0 :: t := by
      rw [Nat.add_assoc, ← List.drop_drop, List.drop_left, ← List.drop_drop, List.drop_left]
      rfl
    simp only
    rw [hmemory, hposition, hsame.1, last_memory hn hv, List.drop_left, hvalue, List.map_cons,
      callText_pair hn hv, List.map_nil]
    have hsplit := List.take_append_drop i pairs
    rwa [hcl, hl] at hsplit

end Extract

/-! ## The calls for one body -/

/-- A form body being received: the connection, what is still to come, and the calls made so far. -/
structure FormRun where
  core : Core
  app : App
  rest : Bytes
  calls : List (Bytes × Bytes)

namespace FormRun

/-- How much of what is offered there is room for. -/
def taken (x : FormRun) (buffer : Bytes) : ℤ :=
  min (min (x.core.contentLength - x.core.contentReceived) buffer.length) (maxSendBufSize - x.app.bytesLeft - 32)

/-- The calls that are made for what is offered. -/
def called (x : FormRun) (buffer : Bytes) : List (Bytes × Bytes) :=
  let consumed := x.taken buffer
  if consumed > 0 then
    formCalls x.app.world.device (poke x.app.sendBuffer x.app.bytesLeft.toNat (slice buffer 0 consumed.toNat))
      (x.app.bytesLeft + consumed) (x.core.contentLength - x.core.contentReceived - consumed)
  else []

/-- Some bytes are offered to `WEB_OnFormReceived`. -/
def offer (env : Env) (x : FormRun) (buffer : Bytes) : FormRun :=
  let (a, consumed) := webOnFormReceived env x.core x.app buffer buffer.length
  { core := { x.core with contentReceived := x.core.contentReceived + max consumed 0 }
    app := a
    rest := x.rest.drop consumed.toNat
    calls := x.calls ++ x.called buffer }

/-- What is offered begins with what is still to come of the body. -/
def runs (env : Env) (body : Bytes) : RunSystem FormRun Bytes where
  init x := x.core.requestMethod = some .post ∧ x.app.killing = false ∧ x.core.contentLength = body.length ∧
    x.core.contentReceived = 0 ∧ x.app.sendBuffer = List.replicate maxSendBufSize 0 ∧ x.app.bytesLeft = 0 ∧
    x.rest = body ∧ x.calls = []
  step x buffer x' := (buffer <+: x.rest ∨ x.rest <+: buffer) ∧ x' = x.offer env buffer

/-- No stale byte stands behind the data; while more is to come of a body of pairs, one may. -/
def Clean (bares : List Bytes) (x : FormRun) (buffer : Bytes) : Prop :=
  0 < x.taken buffer → peek x.app.sendBuffer (x.app.bytesLeft + x.taken buffer).toNat = 0 ∨
    x.taken buffer < x.rest.length ∧ bares = []

/-- What is left of the body, in the buffer and to come, when `i` pairs were handed over. -/
structure Waiting (pairs : List (Bytes × Bytes)) (bares : List Bytes) (x : FormRun) (i : ℕ) (D z : Bytes) :
    Prop where
  buffer : x.app.sendBuffer = D ++ z
  left : x.app.bytesLeft = D.length
  text : D ++ x.rest = joined (items (pairs.drop i) bares)
  items : items (pairs.drop i) bares ≠ []
  length : x.app.sendBuffer.length = maxSendBufSize
  marks : bares = [] → (38 : UInt8) ∉ z
  part : bares = [] → ∃ c ∈ pairs, D <+: field c

structure Collecting (pairs : List (Bytes × Bytes)) (bares : List Bytes) (x : FormRun) : Prop where
  method : x.core.requestMethod = some .post
  killing : x.app.killing = false
  length : x.core.contentLength - x.core.contentReceived = x.rest.length
  progress : ∃ i ≤ pairs.length, x.calls.map callText = pairs.take i ∧ (x.rest = [] → i = pairs.length) ∧
    (x.rest ≠ [] → ∃ D z, Waiting pairs bares x i D z)

/-- The buffer after the parsed bytes are shifted out. -/
def shifted (m : Bytes) (nParsed left : ℤ) : Bytes :=
  if nParsed > 0 ∧ left > 0 then poke m 0 (slice m nParsed.toNat left.toNat) else m

/-- What is offered is not taken when there is no room for it or the body is complete. -/
theorem offer_none {env : Env} {x : FormRun} {buffer : Bytes} (hmethod : x.core.requestMethod = some .post)
    (hkilling : x.app.killing = false) (h : ¬ x.taken buffer > 0) : x.offer env buffer = x := by
  have hreceived : webOnFormReceived env x.core x.app buffer buffer.length =
      (x.app, x.taken buffer) ∨ ∃ n : ℤ, n ≤ 0 ∧
        webOnFormReceived env x.core x.app buffer buffer.length = (x.app, n) := by
    unfold taken at h ⊢
    unfold webOnFormReceived
    simp only [hmethod, hkilling, and_true, Bool.false_eq_true, if_false]
    by_cases hpos : min (x.core.contentLength - x.core.contentReceived) (buffer.length : ℤ) > 0
    · rw [if_pos hpos, if_neg h]
      exact .inl rfl
    · rw [if_neg hpos]
      exact .inr ⟨_, not_lt.mp hpos, rfl⟩
  obtain ⟨n, hn, hreceived⟩ : ∃ n : ℤ, n ≤ 0 ∧
      webOnFormReceived env x.core x.app buffer buffer.length = (x.app, n) := by
    rcases hreceived with hreceived | hreceived
    · exact ⟨_, not_lt.mp h, hreceived⟩
    · exact hreceived
  have hmax : max n 0 = 0 := max_eq_right hn
  have hnat : n.toNat = 0 := Int.toNat_eq_zero.mpr hn
  unfold offer called
  simp only [hreceived, if_neg h, hmax, hnat, Int.add_zero, List.drop_zero, List.append_nil]

/-- What is taken is parsed behind what is in the buffer, and the parsed bytes are shifted out. -/
theorem offer_taken {env : Env} {x : FormRun} {buffer m : Bytes} {d : Device} {nParsed : ℤ}
    (hmethod : x.core.requestMethod = some .post) (hkilling : x.app.killing = false)
    (hleft : 0 ≤ x.app.bytesLeft) (h : x.taken buffer > 0)
    (hextract : extractFormData x.app.world.device
        (poke x.app.sendBuffer x.app.bytesLeft.toNat (slice buffer 0 (x.taken buffer).toNat))
        (x.app.bytesLeft + x.taken buffer)
        (x.core.contentLength - x.core.contentReceived - x.taken buffer) = (d, m, nParsed))
    (hparsed : 0 ≤ nParsed) :
    (x.offer env buffer).core.requestMethod = some .post ∧ (x.offer env buffer).app.killing = false ∧
      (x.offer env buffer).core.contentLength = x.core.contentLength ∧
      (x.offer env buffer).core.contentReceived = x.core.contentReceived + x.taken buffer ∧
      (x.offer env buffer).rest = x.rest.drop (x.taken buffer).toNat ∧
      (x.offer env buffer).app.bytesLeft = x.app.bytesLeft + x.taken buffer - nParsed ∧
      (x.offer env buffer).app.sendBuffer =
        shifted m nParsed (x.app.bytesLeft + x.taken buffer - nParsed) := by
  have hpos : min (x.core.contentLength - x.core.contentReceived) (buffer.length : ℤ) > 0 :=
    lt_of_lt_of_le h (min_le_left _ _)
  have hzero : nParsed = 0 → x.app.bytesLeft + x.taken buffer - nParsed = x.app.bytesLeft + x.taken buffer :=
    fun h0 => by omega
  have hmax : max (x.taken buffer) 0 = x.taken buffer := max_eq_left (le_of_lt h)
  have hreceived : ∃ a, webOnFormReceived env x.core x.app buffer buffer.length = (a, x.taken buffer) ∧
      a.killing = false ∧ a.bytesLeft = x.app.bytesLeft + x.taken buffer - nParsed ∧
      a.sendBuffer = shifted m nParsed (x.app.bytesLeft + x.taken buffer - nParsed) := by
    unfold webOnFormReceived
    rw [if_pos ⟨hpos, hmethod⟩]
    simp only [hkilling, Bool.false_eq_true, if_false]
    have htaken : min (min (x.core.contentLength - x.core.contentReceived) (buffer.length : ℤ))
        ((maxSendBufSize : ℤ) - x.app.bytesLeft - 32) = x.taken buffer := rfl
    rw [htaken, if_pos h, if_neg (not_lt.mpr hleft)]
    simp only [hextract]
    refine ⟨_, rfl, hkilling, ?_, ?_⟩
    · by_cases hp : nParsed > 0
      · exact if_pos hp
      · rw [hzero (by omega)]
        exact if_neg hp
    · by_cases hp : nParsed > 0
      · rw [if_pos hp]
        rfl
      · have hno : ¬ (nParsed > 0 ∧ x.app.bytesLeft + x.taken buffer - nParsed > 0) := fun hn => hp hn.1
        rw [shifted, if_neg hno]
        exact if_neg fun hn => hp hn.1
  obtain ⟨a, hreceived, hkilled, hbytes, hsend⟩ := hreceived
  unfold offer
  simp only [hreceived, hmax]
  exact ⟨hmethod, hkilled, trivial, trivial, trivial, hbytes, hsend⟩

/-- Shifting out what stands in front of the rest. -/
theorem shifted_spec (b D z : Bytes) : (shifted (b ++ (D ++ z)) b.length D.length).length = (b ++ (D ++ z)).length ∧
    ∃ z', shifted (b ++ (D ++ z)) b.length D.length = D ++ z' ∧
      ∀ c, c ∉ b → c ∉ D → c ∉ z → c ∉ z' := by
  have hmem (c : UInt8) (hb : c ∉ b) (hD : c ∉ D) (hz : c ∉ z) : c ∉ b ++ (D ++ z) := by
    simp [hb, hD, hz]
  unfold shifted
  by_cases hgo : (b.length : ℤ) > 0 ∧ (D.length : ℤ) > 0
  · rw [if_pos hgo, Int.toNat_natCast, Int.toNat_natCast]
    have hslice : slice (b ++ (D ++ z)) b.length D.length = D := by
      rw [slice, List.drop_left, List.take_left]
    rw [hslice]
    refine ⟨poke_length ?_, (b ++ (D ++ z)).drop D.length, ?_, fun c hb hD hz hc => ?_⟩
    · simp only [List.length_append]
      omega
    · simp [poke]
    · exact hmem c hb hD hz (List.mem_of_mem_drop hc)
  · rw [if_neg hgo]
    refine ⟨rfl, ?_⟩
    cases b with
    | nil => exact ⟨z, rfl, fun c _ _ hz => hz⟩
    | cons a b =>
      cases D with
      | nil => exact ⟨_, rfl, hmem⟩
      | cons e D =>
        simp only [List.length_cons] at hgo
        omega

section Step

variable {env : Env} {pairs : List (Bytes × Bytes)} {bares : List Bytes}

theorem prefix_take {buffer rest : Bytes} (h : buffer <+: rest ∨ rest <+: buffer) {n : ℕ}
    (hb : n ≤ buffer.length) (hr : n ≤ rest.length) : buffer.take n = rest.take n := by
  rcases h with ⟨u, rfl⟩ | ⟨u, rfl⟩
  · rw [List.take_append_of_le_length hb]
  · rw [List.take_append_of_le_length hr]

/-- Bytes that are taken bring the body forward. -/
theorem Collecting.taken {x : FormRun} (h : Collecting pairs bares x) (hbody : PlainBody pairs bares)
    {buffer : Bytes} (hb : buffer <+: x.rest ∨ x.rest <+: buffer) (hclean : Clean bares x buffer)
    (htaken : x.taken buffer > 0) : Collecting pairs bares (x.offer env buffer) := by
  obtain ⟨i, hi, hcalls, -, hwaiting⟩ := h.progress
  have hlength := h.length
  have hmax : (maxSendBufSize : ℤ) = 1600 := rfl
  obtain ⟨n, hn⟩ : ∃ n : ℕ, x.taken buffer = n := ⟨(x.taken buffer).toNat, (Int.toNat_of_nonneg (by omega)).symm⟩
  have hle : (n : ℤ) ≤ x.core.contentLength - x.core.contentReceived ∧ (n : ℤ) ≤ buffer.length ∧
      (n : ℤ) ≤ maxSendBufSize - x.app.bytesLeft - 32 := by
    rw [← hn]
    unfold FormRun.taken
    omega
  have hrest : x.rest ≠ [] := by
    intro hnil
    rw [hnil, List.length_nil] at hlength
    omega
  obtain ⟨D, z, hw⟩ := hwaiting hrest
  have hleft := hw.left
  have hzlen : D.length + z.length = 1600 := by
    have hl := hw.length
    rw [hw.buffer, List.length_append] at hl
    exact hl
  -- the data with the new bytes, and what stands behind it
  have htext : D ++ x.rest.take n ++ x.rest.drop n = joined (items (pairs.drop i) bares) := by
    rw [List.append_assoc, List.take_append_drop]
    exact hw.text
  have hE : (D ++ x.rest.take n).length = D.length + n := by
    rw [List.length_append, List.length_take]
    omega
  have hslice : slice buffer 0 n = x.rest.take n := by
    rw [slice, List.drop_zero]
    exact prefix_take hb (by omega) (by omega)
  have hmemory : poke x.app.sendBuffer x.app.bytesLeft.toNat (slice buffer 0 (x.taken buffer).toNat) =
      D ++ x.rest.take n ++ z.drop n := by
    have hlen : (x.rest.take n).length = n := by
      rw [List.length_take]
      omega
    rw [hn, Int.toNat_natCast, hslice, hleft, Int.toNat_natCast, hw.buffer, poke, List.take_left, hlen,
      ← List.drop_drop, List.drop_left]
  have hbehind : peek x.app.sendBuffer (x.app.bytesLeft + x.taken buffer).toNat = 0 →
      ∃ t, z.drop n = 0 :: t := by
    intro hpeek
    have hpos : n < z.length := by omega
    have hto : (x.app.bytesLeft + x.taken buffer).toNat = D.length + n := by omega
    rw [hto, hw.buffer, peek, List.getD_append_right _ _ _ _ (Nat.le_add_right _ _), Nat.add_sub_cancel_left,
      List.getD_eq_getElem _ _ hpos] at hpeek
    exact ⟨z.drop (n + 1), by rw [← hpeek, ← List.drop_eq_getElem_cons hpos]⟩
  have hsize : x.app.bytesLeft + x.taken buffer = ((D ++ x.rest.take n).length : ℤ) := by omega
  have hbody' := hbody.drop i
  by_cases hmore : n < x.rest.length
  · -- more of the body is to come
    have hremain : x.core.contentLength - x.core.contentReceived - x.taken buffer > 0 := by omega
    have hz : (38 : UInt8) ∉ cstr (z.drop n) ∧ (bares ≠ [] → (61 : UInt8) ∉ cstr (z.drop n)) := by
      rcases hclean htaken with hpeek | ⟨-, hbares⟩
      · obtain ⟨t, ht⟩ := hbehind hpeek
        rw [ht]
        exact ⟨List.not_mem_nil, fun _ => List.not_mem_nil⟩
      · refine ⟨fun h38 => hw.marks hbares ?_, fun hne => absurd hbares hne⟩
        exact List.mem_of_mem_drop ((List.takeWhile_prefix _).subset h38)
    obtain ⟨j, b', D', ht⟩ := @extract_taken (pairs.drop i) bares x.app.world.device (D ++ x.rest.take n) (z.drop n)
      hbody' hw.items hz.1 hz.2 ⟨_, htext⟩
    obtain ⟨⟨d', hextract⟩, hnew⟩ := extract_more ht hremain
    have hcount := ht.length
    rw [List.length_nil, Nat.zero_add] at hcount
    rw [← hmemory, ← hsize] at hextract hnew
    obtain ⟨hmethod, hkilling, hcl, hcr, hrest', hbytes, hsend⟩ :=
      @offer_taken env x buffer _ _ _ h.method h.killing (by omega) htaken hextract (Int.natCast_nonneg _)
    have hleft' : x.app.bytesLeft + x.taken buffer - b'.length = (D'.length : ℤ) := by omega
    rw [hleft'] at hbytes hsend
    obtain ⟨hslength, z', hz', hmarks⟩ := shifted_spec b' D' (z.drop n)
    have hadd : pairs.take (i + j) = pairs.take i ++ (pairs.drop i).take j := List.take_add
    have hdrop : (pairs.drop i).drop j = pairs.drop (i + j) := List.drop_drop
    have hjle := ht.count
    rw [List.length_drop] at hjle
    have hleft := ht.left
    have hfound := ht.found
    rw [hdrop] at hleft hfound
    have hpart : bares = [] → ∃ c ∈ pairs, D' <+: field c := by
      intro hbares
      obtain ⟨c, l, hcl, hpart⟩ : ∃ c l, pairs.drop (i + j) = c :: l ∧ D' <+: field c := by
        have hne : pairs.drop (i + j) ≠ [] := by
          intro hnil
          refine hleft.2 ?_
          rw [hnil, hbares]
          rfl
        by_cases hD : D' = []
        · obtain ⟨c, l, hcl⟩ := List.exists_cons_of_ne_nil hne
          exact ⟨c, l, hcl, hD ▸ List.nil_prefix⟩
        · exact (hfound hD).2.resolve_left hne
      exact ⟨c, List.mem_of_mem_drop (by rw [hcl]; exact List.mem_cons_self), hpart⟩
    refine ⟨hmethod, hkilling, ?_, i + j, by omega, ?_, fun hnil => ?_, fun _ => ⟨D', z', ?_⟩⟩
    · rw [hcl, hcr, hrest', List.length_drop]
      omega
    · show (x.calls ++ x.called buffer).map callText = _
      unfold called
      simp only [if_pos htaken]
      rw [List.map_append, hcalls, hnew, hadd]
    · rw [hrest', hn, Int.toNat_natCast, List.drop_eq_nil_iff] at hnil
      omega
    · refine ⟨hsend.trans hz', hbytes, ?_, hleft.2, ?_, fun hbares => ?_, hpart⟩
      · rw [hrest', hn, Int.toNat_natCast]
        have hall := htext
        have hne : items ((pairs.drop i).drop j) bares ≠ [] := by rw [hdrop]; exact hleft.2
        rw [joined_split j hne, ht.data, List.append_assoc, hdrop] at hall
        exact List.append_cancel_left hall
      · rw [hsend, hslength]
        simp only [List.length_append, List.length_drop]
        rw [hE] at hcount
        show b'.length + (D'.length + (z.length - n)) = 1600
        omega
      · refine hmarks 38 (ht.marks List.not_mem_nil) ?_ fun hc => hw.marks hbares (List.mem_of_mem_drop hc)
        intro h38
        obtain ⟨c, hc, hbegins⟩ := hpart hbares
        obtain ⟨hcn, hcv, -⟩ := hbody.pairs c hc
        exact (not_mem_field hcn hcv).2 (hbegins.subset h38)
  · -- the last bytes of the body
    have hall : x.rest.drop n = [] := List.drop_eq_nil_iff.mpr (by omega)
    have hremain : ¬ x.core.contentLength - x.core.contentReceived - x.taken buffer > 0 := by omega
    rw [hall, List.append_nil] at htext
    obtain ⟨t, ht⟩ : ∃ t, z.drop n = 0 :: t := by
      rcases hclean htaken with hpeek | ⟨hlt, -⟩
      · exact hbehind hpeek
      · omega
    obtain ⟨⟨d', m, hextract⟩, hnew⟩ := @extract_last (pairs.drop i) bares x.app.world.device _ _ hbody' hw.items
      htext t hremain
    rw [← ht, ← hmemory, ← hsize] at hextract hnew
    obtain ⟨hmethod, hkilling, hcl, hcr, hrest', -, -⟩ :=
      @offer_taken env x buffer _ _ _ h.method h.killing (by omega) htaken hextract (by omega)
    have hnil : (x.offer env buffer).rest = [] := by rw [hrest', hn, Int.toNat_natCast, hall]
    refine ⟨hmethod, hkilling, ?_, pairs.length, le_refl _, ?_, fun _ => rfl, fun hne => absurd hnil hne⟩
    · rw [hcl, hcr, hnil, List.length_nil]
      have hlen := List.drop_eq_nil_iff.mp hall
      omega
    · show (x.calls ++ x.called buffer).map callText = _
      unfold called
      simp only [if_pos htaken]
      rw [List.map_append, hcalls, hnew, List.take_append_drop, List.take_length]

/-- What is offered leaves the body as it is, or brings it forward. -/
theorem Collecting.step {x : FormRun} (h : Collecting pairs bares x) (hbody : PlainBody pairs bares)
    {buffer : Bytes} (hb : buffer <+: x.rest ∨ x.rest <+: buffer) (hclean : Clean bares x buffer) :
    Collecting pairs bares (x.offer env buffer) := by
  by_cases htaken : x.taken buffer > 0
  · exact h.taken hbody hb hclean htaken
  · rw [offer_none h.method h.killing htaken]
    exact h

/-- Before the first byte, the buffer is empty and zero. -/
theorem Collecting.init {x : FormRun} (h : (runs env (joined (items pairs bares))).init x) (hbody : PlainBody pairs bares) :
    Collecting pairs bares x := by
  obtain ⟨hmethod, hkilling, hlength, hreceived, hbuffer, hleft, hrest, hcalls⟩ := h
  refine ⟨hmethod, hkilling, ?_, 0, Nat.zero_le _, ?_, fun hnil => ?_, fun hne => ⟨[], x.app.sendBuffer, ?_⟩⟩
  · rw [hlength, hreceived, hrest, Int.sub_zero]
  · rw [hcalls]
    rfl
  · rw [hrest] at hnil
    have hitems : items pairs bares = [] := by
      by_contra hne
      exact joined_ne_nil hne (items_ne_nil hbody) hnil
    have hpairs := List.map_eq_nil_iff.mp (List.append_eq_nil_iff.mp hitems).1
    rw [hpairs]
    rfl
  · have hitems : items pairs bares ≠ [] := by
      intro hnil
      rw [hrest, hnil] at hne
      exact hne rfl
    refine ⟨rfl, hleft, hrest, hitems, ?_, fun _ => ?_, fun hbares => ?_⟩
    · rw [hbuffer, List.length_replicate]
    · rw [hbuffer]
      exact fun h38 => absurd (List.eq_of_mem_replicate h38) (by decide)
    · cases pairs with
      | nil =>
        rw [hbares] at hitems
        exact absurd rfl hitems
      | cons c pairs => exact ⟨c, List.mem_cons_self, List.nil_prefix⟩

/-- The settings change by the calls that are counted. -/
theorem offer_device (x : FormRun) (buffer : Bytes) (hkilling : x.app.killing = false)
    (hmethod : x.core.requestMethod = some .post) :
    (x.offer env buffer).app.world.device = applyCalls x.app.world.device (x.called buffer) := by
  by_cases htaken : x.taken buffer > 0
  · have hpos : min (x.core.contentLength - x.core.contentReceived) (buffer.length : ℤ) > 0 :=
      lt_of_lt_of_le htaken (min_le_left _ _)
    have hn : min (min (x.core.contentLength - x.core.contentReceived) (buffer.length : ℤ))
        ((maxSendBufSize : ℤ) - x.app.bytesLeft - 32) = x.taken buffer := rfl
    unfold called
    rw [if_pos htaken, ← extractFormData_device]
    unfold offer webOnFormReceived
    rw [if_pos ⟨hpos, hmethod⟩]
    simp only [hkilling, Bool.false_eq_true, if_false]
    rw [hn, if_pos htaken]
    split_ifs <;> rfl
  · rw [offer_none hmethod hkilling htaken]
    unfold called
    rw [if_neg htaken]
    rfl

end Step

end FormRun

/-! ## An encoded body -/

/-- An item of a form: a name, with a value or without `=`. -/
abbrev Entry := Bytes × Option Bytes

/-- `application/x-www-form-urlencoded`, with `%XX` for the reserved bytes. -/
def encodeEntry (reserved : UInt8 → Bool) : Entry → Bytes
  | (n, some v) => percentEncode reserved n ++ 61 :: percentEncode reserved v
  | (n, none) => percentEncode reserved n

def formEncode (reserved : UInt8 → Bool) (entries : List Entry) : Bytes := joined (entries.map (encodeEntry reserved))

/-- The names with their values. -/
def namedValues (entries : List Entry) : List (Bytes × Bytes) := entries.filterMap fun e => e.2.map (e.1, ·)

/-- The names that stand alone. -/
def bareNames (entries : List Entry) : List Bytes := entries.filterMap fun e => if e.2.isNone then some e.1 else none

/-- The bytes that stand for marks in a body are reserved. -/
def Reserves (reserved : UInt8 → Bool) : Prop := ∀ b : UInt8, b = 0 ∨ b = 38 ∨ b = 61 ∨ b = 37 → reserved b = true

/-- Nothing in the names and the values needs an escape. -/
def Unescaped (reserved : UInt8 → Bool) (entries : List Entry) : Prop :=
  ∀ e ∈ entries, (∀ b ∈ e.1, reserved b = false) ∧ ∀ v, e.2 = some v → ∀ b ∈ v, reserved b = false

/-- A name that stands alone comes behind all that have a value. -/
def BareLast (entries : List Entry) : Prop :=
  entries = (namedValues entries).map (fun c => (c.1, some c.2)) ++ (bareNames entries).map fun n => (n, none)

section Encoded

variable {reserved : UInt8 → Bool} {entries : List Entry}

theorem plain_of_unreserved (h : Reserves reserved) {t : Bytes} (ht : ∀ b ∈ t, reserved b = false) : Plain t := by
  intro b hb
  have hno := ht b hb
  refine ⟨?_, ?_, ?_, ?_⟩ <;> intro hmark
  · exact absurd (h b (.inl hmark)) (by simp [hno])
  · exact absurd (h b (.inr (.inl hmark))) (by simp [hno])
  · exact absurd (h b (.inr (.inr (.inl hmark)))) (by simp [hno])
  · exact absurd (h b (.inr (.inr (.inr hmark)))) (by simp [hno])

theorem mem_namedValues {c : Bytes × Bytes} (h : c ∈ namedValues entries) : (c.1, some c.2) ∈ entries := by
  obtain ⟨⟨n, v⟩, he, hc⟩ := List.mem_filterMap.mp h
  cases v with
  | none => exact absurd hc (by simp)
  | some v =>
    obtain rfl := Option.some.inj hc
    exact he

theorem mem_bareNames {n : Bytes} (h : n ∈ bareNames entries) : (n, none) ∈ entries := by
  obtain ⟨⟨m, v⟩, he, hn⟩ := List.mem_filterMap.mp h
  cases v with
  | none =>
    obtain rfl := Option.some.inj hn
    exact he
  | some v => exact absurd hn (by simp)

theorem encodeEntry_some {n v : Bytes} (hn : ∀ b ∈ n, reserved b = false) (hv : ∀ b ∈ v, reserved b = false) :
    encodeEntry reserved (n, some v) = field (n, v) := by
  show percentEncode reserved n ++ 61 :: percentEncode reserved v = _
  rw [percentEncode_plain hn, percentEncode_plain hv]
  rfl

/-- A body without escapes is the body of its items. -/
theorem formEncode_items (hplain : Unescaped reserved entries) (hlast : BareLast entries) :
    formEncode reserved entries = joined (items (namedValues entries) (bareNames entries)) := by
  have hnamed : ∀ c ∈ namedValues entries, encodeEntry reserved (c.1, some c.2) = field c := by
    intro c hc
    obtain ⟨hn, hv⟩ := hplain _ (mem_namedValues hc)
    exact encodeEntry_some hn (hv c.2 rfl)
  have hbare : ∀ n ∈ bareNames entries, encodeEntry reserved (n, none) = n := by
    intro n hn
    exact percentEncode_plain (hplain _ (mem_bareNames hn)).1
  have hitems : entries.map (encodeEntry reserved) = items (namedValues entries) (bareNames entries) := by
    conv_lhs => rw [hlast]
    rw [List.map_append, List.map_map, List.map_map]
    exact congrArg₂ (· ++ ·) (List.map_congr_left hnamed) ((List.map_congr_left hbare).trans (List.map_id _))
  rw [formEncode, hitems]

theorem plainBody (hreserved : Reserves reserved) (hnames : ∀ e ∈ entries, e.1 ≠ []) (hplain : Unescaped reserved entries) :
    PlainBody (namedValues entries) (bareNames entries) where
  pairs := by
    intro c hc
    obtain ⟨hn, hv⟩ := hplain _ (mem_namedValues hc)
    exact ⟨plain_of_unreserved hreserved hn, plain_of_unreserved hreserved (hv c.2 rfl), hnames _ (mem_namedValues hc)⟩
  bares := by
    intro n hn
    exact ⟨plain_of_unreserved hreserved (hplain _ (mem_bareNames hn)).1, hnames _ (mem_bareNames hn)⟩

end Encoded

open FormRun in
/-- While what is in the buffer is a part of a pair that fits, there is room for more. -/
theorem room_left {reserved : UInt8 → Bool} {entries : List Entry} {x : FormRun}
    (h : Collecting (namedValues entries) [] x) (hplain : Unescaped reserved entries)
    (hfits : ∀ e ∈ entries, (encodeEntry reserved e).length < maxSendBufSize - 32) (hmore : x.rest ≠ [])
    {buffer : Bytes} (hbuffer : buffer ≠ []) : 0 < x.taken buffer := by
  obtain ⟨i, -, -, -, hwaiting⟩ := h.progress
  obtain ⟨D, z, hw⟩ := hwaiting hmore
  obtain ⟨c, hc, hpart⟩ := hw.part rfl
  obtain ⟨hn, hv⟩ := hplain _ (mem_namedValues hc)
  have hfit := hfits _ (mem_namedValues hc)
  rw [encodeEntry_some hn (hv c.2 rfl)] at hfit
  have hle := hpart.length_le
  have hlength := h.length
  have hleft := hw.left
  have hrest := List.length_pos_of_ne_nil hmore
  have hsome := List.length_pos_of_ne_nil hbuffer
  have hmax : (maxSendBufSize : ℤ) = 1600 := rfl
  have hfit' : (field c).length < 1568 := hfit
  unfold taken
  omega

/-- A form body without escapes comes out as it was sent: the calls are those of its pairs, in order. -/
theorem form_decoding (env : Env) {reserved : UInt8 → Bool} (hreserved : Reserves reserved) {entries : List Entry}
    (hnames : ∀ e ∈ entries, e.1 ≠ []) (hplain : Unescaped reserved entries) (hlast : BareLast entries) {x : FormRun}
    (hr : ((FormRun.runs env (formEncode reserved entries)).restrict (FormRun.Clean (bareNames entries))).Reach x) :
    (∃ i, x.calls.map callText = (namedValues entries).take i) ∧
      (x.rest = [] → x.calls.map callText = namedValues entries) ∧
      (∀ buffer, (x.offer env buffer).calls = x.calls ++ x.called buffer ∧
        (x.offer env buffer).app.world.device = applyCalls x.app.world.device (x.called buffer)) ∧
      (bareNames entries = [] → (∀ e ∈ entries, (encodeEntry reserved e).length < maxSendBufSize - 32) →
        x.rest ≠ [] → ∀ buffer, buffer ≠ [] → 0 < x.taken buffer) := by
  have hbody := plainBody hreserved hnames hplain
  have h : FormRun.Collecting (namedValues entries) (bareNames entries) x := by
    refine hr.invariant (fun y hy => ?_) fun y buffer y' hy hs => ?_
    · rw [formEncode_items hplain hlast] at hy
      exact @FormRun.Collecting.init env _ _ _ hy hbody
    · obtain ⟨hclean, hb, rfl⟩ := hs
      exact hy.step hbody hb hclean
  obtain ⟨i, hi, hcalls, hdone, -⟩ := h.progress
  refine ⟨⟨i, hcalls⟩, fun hnil => ?_, fun buffer => ⟨rfl, ?_⟩, fun hbare hfits hmore buffer hbuffer => ?_⟩
  · rw [hcalls, hdone hnil, List.take_length]
  · exact FormRun.offer_device x buffer h.killing h.method
  · rw [hbare] at h
    exact room_left h hplain hfits hmore hbuffer

/-- The first call of a form handler: `WEB_OnFormHeaders` cleared the buffer. -/
def formStart (body : Bytes) : FormRun where
  core := { Core.zero 0 with requestMethod := some .post, contentLength := body.length }
  app := webOnFormHeaders (App.zero World.boot)
  rest := body
  calls := []

theorem formStart_init (env : Env) (body : Bytes) : (FormRun.runs env body).init (formStart body) :=
  ⟨rfl, rfl, rfl, rfl, rfl, rfl, rfl, rfl⟩

/-- Everything but letters and digits is escaped. -/
def reservedMark (b : UInt8) : Bool := !(48 ≤ b && b ≤ 57 || 65 ≤ b && b ≤ 90 || 97 ≤ b && b ≤ 122)

theorem reservedMark_reserves : Reserves reservedMark := by
  rintro b (rfl | rfl | rfl | rfl) <;> decide

/-- A pair and a name that stands alone. -/
def plainForm : List Entry := [(bytes "a", some (bytes "1")), (bytes "b", none)]

theorem form_decoding_plain :
    ((formStart (formEncode reservedMark plainForm)).offer (Env.calm []) (bytes "a=1&b")).calls.map callText =
      [(bytes "a", bytes "1")] := by
  have hnames : ∀ e ∈ plainForm, e.1 ≠ [] := by decide +kernel
  have hplain : Unescaped reservedMark plainForm := by
    unfold Unescaped plainForm
    simp only [List.forall_mem_cons, List.not_mem_nil, false_implies, implies_true, and_true]
    refine ⟨⟨by decide +kernel, fun v hv => ?_⟩, by decide +kernel, fun v hv => absurd hv (by simp)⟩
    obtain rfl := Option.some.inj hv
    decide +kernel
  have hr : ((FormRun.runs (Env.calm []) (formEncode reservedMark plainForm)).restrict
      (FormRun.Clean (bareNames plainForm))).Reach
      ((formStart (formEncode reservedMark plainForm)).offer (Env.calm []) (bytes "a=1&b")) := by
    refine .step (bytes "a=1&b") (.init (formStart_init (Env.calm []) _)) ⟨fun _ => .inl ?_, .inl ?_, rfl⟩
    · decide +kernel
    · decide +kernel
  exact (form_decoding (Env.calm []) reservedMark_reserves hnames hplain rfl hr).2.1 (by decide +kernel)

/-- A value with a byte that is escaped. -/
def blankForm : List Entry := [(bytes "a", some (bytes " "))]

theorem form_decoding_fails :
    ¬ ∀ (env : Env) (reserved : UInt8 → Bool) (entries : List Entry), Reserves reserved →
      (∀ e ∈ entries, e.1 ≠ [] ∧ e.2 ≠ none ∧ (0 : UInt8) ∉ e.1 ∧ ∀ v, e.2 = some v → (0 : UInt8) ∉ v) →
      (∀ e ∈ entries, (encodeEntry reserved e).length < maxSendBufSize - 32) →
      ∀ x, (FormRun.runs env (formEncode reserved entries)).Reach x → x.rest = [] →
        x.calls.map callText = namedValues entries := by
  intro h
  have hentries : ∀ e ∈ blankForm,
      e.1 ≠ [] ∧ e.2 ≠ none ∧ (0 : UInt8) ∉ e.1 ∧ ∀ v, e.2 = some v → (0 : UInt8) ∉ v := by
    intro e he
    obtain rfl := List.mem_singleton.mp he
    refine ⟨by decide, by decide, by decide, fun v hv => ?_⟩
    obtain rfl := Option.some.inj hv
    decide
  have hr : (FormRun.runs (Env.calm []) (formEncode reservedMark blankForm)).Reach
      ((formStart (formEncode reservedMark blankForm)).offer (Env.calm []) (bytes "a=%20")) :=
    .step (bytes "a=%20") (.init (formStart_init (Env.calm []) _)) ⟨.inl (by decide), rfl⟩
  have hcalls := h (Env.calm []) reservedMark blankForm reservedMark_reserves hentries (by decide) _ hr
    (by decide +kernel)
  have hread : ((formStart (formEncode reservedMark blankForm)).offer (Env.calm []) (bytes "a=%20")).calls.map
      callText = [(bytes "a", bytes " 20")] := by
    decide +kernel
  exact absurd (hread.symm.trans hcalls) (by decide)

end StraightHttpd
