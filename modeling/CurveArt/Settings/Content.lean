import CurveArt.Settings.Field

/-!
# The content of fields

A field names a part of settings: `Settings.get` looks at the part and `Settings.set` replaces it
and nothing else. Settings are made up of the contents of all fields.
-/

namespace CurveArt

/-- What stands in a field. -/
abbrev Field.Content : Field → Type
  | .style => Style
  | .f1 | .f2 => String
  | .sampling => Sampling
  | .domain | .figureSize => Float × Float
  | .sampleCount => Nat
  | .colorMode => ColorMode
  | .color | .color1 | .color2 | .backgroundColor => Rgba
  | .alpha | .pointSize | .lineWidth | .jitter | .rotationDegrees => Float
  | .mirror => Bool
  | .seed => Option UInt64

/-- Every field is listed. -/
theorem Field.mem_all (field : Field) : field ∈ Field.all := by
  cases field <;> decide

namespace Settings

/-- The content of a field. -/
def get (s : Settings) : (field : Field) → field.Content
  | .style => s.style
  | .f1 => s.f1
  | .f2 => s.f2
  | .sampling => s.sampling
  | .domain => s.domain
  | .sampleCount => s.sampleCount
  | .colorMode => s.colorMode
  | .color => s.color
  | .color1 => s.color1
  | .color2 => s.color2
  | .alpha => s.alpha
  | .pointSize => s.pointSize
  | .lineWidth => s.lineWidth
  | .jitter => s.jitter
  | .mirror => s.mirror
  | .rotationDegrees => s.rotationDegrees
  | .backgroundColor => s.backgroundColor
  | .seed => s.seed
  | .figureSize => s.figureSize

/-- The settings with another content of one field. -/
def set (s : Settings) : (field : Field) → field.Content → Settings
  | .style, v => { s with style := v }
  | .f1, v => { s with f1 := v }
  | .f2, v => { s with f2 := v }
  | .sampling, v => { s with sampling := v }
  | .domain, v => { s with domain := v }
  | .sampleCount, v => { s with sampleCount := v }
  | .colorMode, v => { s with colorMode := v }
  | .color, v => { s with color := v }
  | .color1, v => { s with color1 := v }
  | .color2, v => { s with color2 := v }
  | .alpha, v => { s with alpha := v }
  | .pointSize, v => { s with pointSize := v }
  | .lineWidth, v => { s with lineWidth := v }
  | .jitter, v => { s with jitter := v }
  | .mirror, v => { s with mirror := v }
  | .rotationDegrees, v => { s with rotationDegrees := v }
  | .backgroundColor, v => { s with backgroundColor := v }
  | .seed, v => { s with seed := v }
  | .figureSize, v => { s with figureSize := v }

variable {s t : Settings} {field other : Field}

@[simp] theorem get_set_self (s : Settings) (field : Field) (content : field.Content) :
    (s.set field content).get field = content := by
  cases field <;> rfl

theorem get_set_of_ne (h : other ≠ field) (content : field.Content) :
    (s.set field content).get other = s.get other := by
  cases field <;> cases other <;> first | rfl | exact absurd rfl h

/-- Settings are made up of the contents of their fields. -/
theorem ext_get (h : ∀ field, s.get field = t.get field) : s = t := by
  cases s
  cases t
  rw [Settings.mk.injEq]
  exact ⟨h .style, h .f1, h .f2, h .sampling, h .domain, h .sampleCount, h .colorMode, h .color,
    h .color1, h .color2, h .alpha, h .pointSize, h .lineWidth, h .jitter, h .mirror,
    h .rotationDegrees, h .backgroundColor, h .seed, h .figureSize⟩

end Settings

end CurveArt
