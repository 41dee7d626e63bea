import Mathlib.Data.Nat.Basic
import Mathlib.Tactic

/-! Pages of 4096 bytes in a 32-bit address space.

Addresses are natural numbers below `2 ^ 32` and sums wrap where a program's
would. Chunks of a range never cross a page. -/

namespace Espix.Lib.Page

def wrap (n : Nat) : Nat := n % 4294967296

def page (va : Nat) : Nat := va / 4096

def offset (va : Nat) : Nat := va % 4096

def pageDown (va : Nat) : Nat := va / 4096 * 4096

def pageUp (va : Nat) : Nat := wrap (va + 4095) / 4096 * 4096

def chunk (va n : Nat) : Nat := min n (4096 - va % 4096)

theorem pageDown_aligned (va : Nat) : pageDown va % 4096 = 0 := by
  simp [pageDown]

theorem pageUp_aligned (va : Nat) : pageUp va % 4096 = 0 := by
  simp [pageUp]

theorem chunk_pos (va : Nat) {n : Nat} (some_left : 0 < n) : 0 < chunk va n := by
  simp only [chunk]
  omega

theorem chunk_le (va n : Nat) : chunk va n ≤ n := by
  simp only [chunk]
  omega

/-- Inside the chunk the addresses neither wrap nor leave the page. -/
theorem chunk_inside {va n k : Nat} (bound : va < 4294967296) (inside : k < chunk va n) :
    wrap (va + k) = va + k ∧ page (va + k) = page va ∧ offset (va + k) = offset va + k := by
  simp only [chunk, wrap, page, offset] at *
  omega

theorem wrap_add_wrap (va c k : Nat) : wrap (wrap (va + c) + k) = wrap (va + (c + k)) := by
  simp only [wrap]
  omega

theorem wrap_lt (n : Nat) : wrap n < 4294967296 := by
  simp only [wrap]
  omega

/-- How far an address lies behind the start of a range, around the end of memory. -/
def index (uva vb : Nat) : Nat := wrap (vb + 4294967296 - uva)

theorem wrap_index {uva vb : Nat} (start : uva < 4294967296) (bound : vb < 4294967296) :
    wrap (uva + index uva vb) = vb := by
  simp only [index, wrap]
  omega

theorem index_wrap {uva k : Nat} (start : uva < 4294967296) (bound : k < 4294967296) :
    index uva (wrap (uva + k)) = k := by
  simp only [index, wrap]
  omega

/-- The addresses of the first chunk are those of the page from the start on. -/
theorem index_lt_chunk {uva vb c : Nat} (start : uva < 4294967296) (bound : vb < 4294967296)
    (inside : offset uva + c ≤ 4096) :
    index uva vb < c ↔ page vb = page uva ∧ offset uva ≤ offset vb ∧
    offset vb < offset uva + c := by
  simp only [index, wrap, page, offset] at *
  omega

theorem index_eq_offset {uva vb : Nat} (same : page vb = page uva)
    (after : offset uva ≤ offset vb) : index uva vb = offset vb - offset uva := by
  simp only [index, wrap, page, offset] at *
  omega

/-- Seen from the next turn, an address is a chunk nearer, or beyond any range. -/
theorem index_next {uva vb c : Nat} (start : uva < 4294967296) (bound : vb < 4294967296)
    (short : c ≤ 4294967296) :
    (c ≤ index uva vb → index (wrap (uva + c)) vb = index uva vb - c) ∧
      (index uva vb < c → 4294967296 - c ≤ index (wrap (uva + c)) vb) := by
  simp only [index, wrap]
  omega

theorem chunk_fits (va n : Nat) : offset va + chunk va n ≤ 4096 := by
  simp only [offset, chunk]
  omega

end Espix.Lib.Page
