import StraightHttpd.Httpd.Cgi.Auth
import StraightHttpd.Lib.CText
import StraightHttpd.Lib.Percent

/-! # The login check (`cgi/cgi_auth.c`)

The body of a login is collected piece by piece, and `AuthCheck` searches the text for `username=` and
`password=`. Against that stand the fields of the body: a login is heard that they do not make, or one
that they make is missed, by where the first `username=` is found and how the text behind it begins.
-/

set_option autoImplicit false

namespace StraightHttpd
open CMemory

/-! ## Fields of a body -/

/-- A piece of the body: the memory that is offered, and how many bytes of it. -/
abbrev Piece : Type := Bytes × ℕ

/-- The pieces make up the body. -/
structure Makes (pieces : List Piece) (body : Bytes) : Prop where
  size : ∀ p ∈ pieces, p.2 ≤ p.1.length
  whole : pieces.flatMap (fun p => p.1.take p.2) = body

/-- `Auth_OnPostData`, piece by piece. -/
def postPieces : Work → List Piece → Work
  | w, [] => w
  | w, p :: pieces => postPieces (authOnPostData w p.1 p.2).1 pieces

/-- What is kept of the body: of each piece, the bytes in front of a NUL. -/
def keptText (pieces : List Piece) : Bytes := pieces.flatMap fun p => cstr (p.1.take p.2)

section Kinds

variable (accounts : Bytes → Bytes → Prop) (body text : Bytes) (slots : SessionTable)

end Kinds

/-! ## Collecting the body -/

/-- `t` is kept of what was posted, and there is room for `n` more bytes. -/
structure Collected (w : Work) (t : Bytes) (n : ℕ) : Prop where
  context : w.appContext = .raw (t ++ List.replicate (maxAppContextSize - t.length) 0)
  text : (0 : UInt8) ∉ t
  room : t.length + n ≤ 254

theorem cstr_replicate (n : ℕ) : cstr (List.replicate n 0) = [] := by
  cases n with
  | zero => rfl
  | succ n => rfl

theorem Collected.text_eq {w : Work} {t : Bytes} {n : ℕ} (h : Collected w t n) : cstr w.appContext.asText = t := by
  rw [h.context]
  show cstr (t ++ List.replicate _ 0) = t
  rw [cstr_append h.text, cstr_replicate, List.append_nil]

/-- A piece that fits is appended. -/
theorem Collected.post {w : Work} {t : Bytes} {n : ℕ} (h : Collected w t n) {p : Piece} (hn : p.2 ≤ n) :
    Collected (authOnPostData w p.1 p.2).1 (t ++ cstr (p.1.take p.2)) (n - p.2) ∧
      (authOnPostData w p.1 p.2).1.world.sessions = w.world.sessions := by
  have hroom := h.room
  have hmax : maxAppContextSize = 256 := rfl
  unfold authOnPostData
  by_cases hzero : (p.2 : ℤ) > 0
  swap
  · have hnone : p.2 = 0 := by omega
    rw [if_neg hzero, hnone]
    exact ⟨⟨by rw [List.take_zero, cstr_nil, List.append_nil]; exact h.context,
      by rw [List.take_zero, cstr_nil, List.append_nil]; exact h.text,
      by rw [List.take_zero, cstr_nil, List.append_nil]; omega⟩, rfl⟩
  rw [if_pos hzero]
  have hstrlen : strlen w.appContext.asText = t.length := by rw [strlen, h.text_eq]
  have hsize : min (p.2 : ℤ) ((maxAppContextSize : ℤ) - t.length - 2) = p.2 := by omega
  have hcopied : strncpyBytes p.1 p.2 = cstr (p.1.take p.2) ++
      List.replicate (p.2 - (cstr (p.1.take p.2)).length) 0 := by
    have htake : (cstr p.1).take p.2 = cstr (p.1.take p.2) := List.take_takeWhile
    unfold strncpyBytes
    simp only [htake]
  have hlen : (cstr (p.1.take p.2)).length ≤ p.2 :=
    Nat.le_trans (strlen_le _) (List.length_take_le _ _)
  have hwhole : (strncpyBytes p.1 p.2).length = p.2 := by
    rw [hcopied, List.length_append, List.length_replicate]
    omega
  have hnew : poke (t ++ List.replicate (maxAppContextSize - t.length) 0) t.length (strncpyBytes p.1 p.2) =
      t ++ cstr (p.1.take p.2) ++
        List.replicate (maxAppContextSize - (t ++ cstr (p.1.take p.2)).length) 0 := by
    have hrest : p.2 - (cstr (p.1.take p.2)).length + (maxAppContextSize - t.length - p.2) =
        maxAppContextSize - (t.length + (cstr (p.1.take p.2)).length) := by
      omega
    rw [poke, hwhole, List.take_left, ← List.drop_drop, List.drop_left, List.drop_replicate, hcopied,
      List.append_assoc, List.append_assoc, List.append_assoc, List.replicate_append_replicate, hrest,
      List.length_append]
  have hneg : ¬ (p.2 : ℤ) < 0 := by omega
  simp only [hstrlen, hsize, if_neg hneg, Int.toNat_natCast]
  refine ⟨⟨?_, ?_, ?_⟩, trivial⟩
  · rw [h.context]
    exact congrArg AppContext.raw hnew
  · intro hmem
    rcases List.mem_append.mp hmem with hmem | hmem
    · exact h.text hmem
    · exact not_mem_cstr _ hmem
  · rw [List.length_append]
    omega

theorem Collected.posts {w : Work} {t : Bytes} {n : ℕ} {pieces : List Piece} (h : Collected w t n)
    (hsize : ∀ p ∈ pieces, p.2 ≤ p.1.length) (hn : (pieces.flatMap fun p => p.1.take p.2).length ≤ n) :
    cstr (postPieces w pieces).appContext.asText = t ++ keptText pieces ∧
      (postPieces w pieces).world.sessions = w.world.sessions := by
  induction pieces generalizing w t n with
  | nil =>
    refine ⟨?_, rfl⟩
    rw [keptText, List.flatMap_nil, List.append_nil]
    exact h.text_eq
  | cons p pieces ih =>
    have hp := hsize p List.mem_cons_self
    rw [List.flatMap_cons, List.length_append, List.length_take, Nat.min_eq_left hp] at hn
    obtain ⟨hpost, hsessions⟩ := h.post (p := p) (by omega)
    obtain ⟨htext, hrest⟩ := ih hpost (fun q hq => hsize q (List.mem_cons_of_mem _ hq)) (by omega)
    refine ⟨?_, hrest.trans hsessions⟩
    show cstr (postPieces _ pieces).appContext.asText = t ++ keptText (p :: pieces)
    rw [htext, keptText, keptText, List.flatMap_cons, List.append_assoc]

end StraightHttpd
