/-
Masked texts: a host text in which everything outside given regions is blanked out, byte for byte,
so that offsets and line ends stay where they are.
-/
import EmbeddedMarkup.Region

namespace EmbeddedMarkup.Mask

/-- Spaces for every byte of `t`, with the line feeds left in place. -/
def blank : Text → Text
  | [] => []
  | c :: t => (if c = '\n' then ['\n'] else List.replicate c.utf8Size ' ') ++ blank t

/-- Masks the part `rest` of a text of `length` bytes that begins at byte offset `pos`. A region
that begins before `pos`, is backward once its end is clamped to `length`, or has an end inside a
character is skipped. -/
def maskFrom (length pos : Nat) (rest : Text) : List Region → Text
  | [] => blank rest
  | r :: regions =>
    let stop := min r.stop length
    if pos ≤ r.start ∧ r.start ≤ stop then
      match Text.splitAt? rest (r.start - pos) with
      | none => maskFrom length pos rest regions
      | some (gap, tail) =>
        match Text.splitAt? tail (stop - r.start) with
        | none => maskFrom length pos rest regions
        | some (inside, tail) => blank gap ++ inside ++ maskFrom length stop tail regions
    else
      maskFrom length pos rest regions

/-- `t` with everything outside of `regions` blanked out. -/
def mask (t : Text) (regions : List Region) : Text :=
  maskFrom (Text.byteLength t) 0 t regions

end EmbeddedMarkup.Mask
