import NetDesign.Cells

/-!
# HTTP/1.1 response framing

The reader of a stream of responses: a header block up to the blank line, then as many body
bytes as its `Content-Length` says.

* `response_append` — what follows a response does not change how it is read.
* `response_of_prefix` — no proper prefix of a response is read as one.
* `framed_succ` — a stream of `n + 1` responses is a response and a stream of `n`.
* `framed_replicate` — a response that is repeated.
-/

namespace NetDesign.Http

def blankLine : List Byte := ascii "\r\n\r\n"

/-- A stream up to its first blank line, and what follows it. -/
def headerBlock : List Byte → Option (List Byte × List Byte)
  | [] => none
  | b :: s =>
    if blankLine <+: b :: s then some ([], (b :: s).drop blankLine.length)
    else (headerBlock s).map fun x => (b :: x.1, x.2)

/-- What follows the first occurrence of `name`. -/
def field (name : List Byte) : List Byte → Option (List Byte)
  | [] => none
  | b :: s => if name <+: b :: s then some ((b :: s).drop name.length) else field name s

/-- The number a field value begins with. -/
def number (value : List Byte) : Nat :=
  (value.takeWhile fun b => 48 ≤ b ∧ b ≤ 57).foldl (fun n b => 10 * n + (b.toNat - 48)) 0

def contentLength (header : List Byte) : Option Nat :=
  (field (ascii "\r\nContent-Length: ") header).map number

/-- The body of the first response of a stream, and what follows it. -/
def response (s : List Byte) : Option (List Byte × List Byte) := do
  let (header, rest) ← headerBlock s
  let n ← contentLength header
  if n ≤ rest.length then some (rest.take n, rest.drop n) else none

example : response (ascii "A: b\r\nContent-Length: 2\r\n\r\nhi!") =
    some (ascii "hi", ascii "!") := by decide +kernel

/-- The bodies of a stream that is exactly `n` responses. -/
def responses : Nat → List Byte → Option (List (List Byte))
  | 0, s => if s = [] then some [] else none
  | n + 1, s => do
    let (body, rest) ← response s
    let bodies ← responses n rest
    some (body :: bodies)

/-- The stream is exactly `n` responses with this body. -/
def Framed (body : List Byte) (n : Nat) (s : List Byte) : Prop :=
  responses n s = some (List.replicate n body)

variable {s t rest header body : List Byte} {n : Nat}

theorem length_le_of_headerBlock (h : headerBlock s = some (header, rest)) :
    blankLine.length ≤ s.length := by
  induction s generalizing header with
  | nil => cases h
  | cons b s ih =>
    rw [headerBlock] at h
    split_ifs at h with hblank
    · exact hblank.length_le
    · obtain ⟨⟨header', rest'⟩, hx, heq⟩ := Option.map_eq_some_iff.1 h
      cases heq
      exact (ih hx).trans (Nat.le_succ _)

/-- A blank line that is found is found again with more behind it. -/
theorem headerBlock_append (h : headerBlock s = some (header, rest)) :
    headerBlock (s ++ t) = some (header, rest ++ t) := by
  induction s generalizing header with
  | nil => cases h
  | cons b s ih =>
    rw [headerBlock] at h
    rw [List.cons_append, headerBlock]
    split_ifs at h with hblank
    · cases h
      have hlong : blankLine <+: b :: (s ++ t) := hblank.trans (List.prefix_append (b :: s) t)
      rw [if_pos hlong, ← List.cons_append, List.drop_append_of_le_length hblank.length_le]
    · obtain ⟨⟨header', rest'⟩, hx, heq⟩ := Option.map_eq_some_iff.1 h
      cases heq
      -- The blank line is inside `s`, so it does not begin in `b :: s` and end in `t`.
      have hlen : blankLine.length ≤ (b :: s).length :=
        (length_le_of_headerBlock hx).trans (Nat.le_succ _)
      have hshort : ¬ blankLine <+: b :: (s ++ t) := fun hlong =>
        hblank (List.prefix_of_prefix_length_le hlong (List.prefix_append (b :: s) t) hlen)
      rw [if_neg hshort, ih hx]
      rfl

theorem response_append (h : response s = some (body, rest)) :
    response (s ++ t) = some (body, rest ++ t) := by
  simp only [response, Option.bind_eq_bind, Option.bind_eq_some_iff] at h
  obtain ⟨⟨header, rest'⟩, hblock, n, hn, h⟩ := h
  split_ifs at h with hlen
  cases h
  have hlen' : n ≤ (rest' ++ t).length := by
    rw [List.length_append]
    exact Nat.le_add_right_of_le hlen
  simp only [response, headerBlock_append hblock, Option.bind_eq_bind, Option.bind_some, hn,
    if_pos hlen']
  rw [List.take_append_of_le_length hlen, List.drop_append_of_le_length hlen]

/-- A proper prefix of a response is not one. -/
theorem response_of_prefix (h : response (s ++ t) = some (body, [])) (ht : t ≠ []) :
    response s = none := by
  by_contra hne
  obtain ⟨⟨body', rest⟩, hs⟩ := Option.ne_none_iff_exists'.1 hne
  have hst := response_append (t := t) hs
  rw [h] at hst
  simp only [Option.some.injEq, Prod.mk.injEq] at hst
  exact ht (List.append_eq_nil_iff.1 hst.2.symm).2

theorem framed_zero : Framed body 0 s ↔ s = [] := by
  rw [Framed, responses]
  split_ifs with hs <;> simp [hs]

theorem framed_succ :
    Framed body (n + 1) s ↔ ∃ rest, response s = some (body, rest) ∧ Framed body n rest := by
  simp only [Framed, responses, Option.bind_eq_bind, Option.bind_eq_some_iff, Prod.exists,
    Option.some.injEq, List.replicate_succ, List.cons.injEq]
  refine ⟨?_, ?_⟩
  · intro hyp
    obtain ⟨body', rest, hs, bodies, hrest, rfl, rfl⟩ := hyp
    exact ⟨rest, hs, hrest⟩
  · intro hyp
    obtain ⟨rest, hs, hrest⟩ := hyp
    exact ⟨body, rest, hs, _, hrest, rfl, rfl⟩

theorem framed_replicate (h : response s = some (body, [])) (n : Nat) :
    Framed body n (List.replicate n s).flatten := by
  induction n with
  | zero => exact framed_zero.2 rfl
  | succ n ih =>
    rw [framed_succ, List.replicate_succ, List.flatten_cons]
    exact ⟨_, response_append h, ih⟩

end NetDesign.Http
