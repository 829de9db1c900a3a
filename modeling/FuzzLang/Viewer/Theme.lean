import FuzzLang.Screen.Canvas

/-!
# The colours of the viewer
-/

namespace FuzzLang.Viewer.Theme

open Screen

def fg : Color := .rgb 205 214 244
/-- Brackets. -/
def primary : Color := .rgb 137 180 250
/-- The number of the current line, and the numbers of statements. -/
def secondary : Color := .rgb 250 179 135
def comment : Color := .rgb 108 112 134
def success : Color := .rgb 166 227 161
def error : Color := .rgb 243 139 168
def keyword : Color := .rgb 203 166 247
def string : Color := .rgb 166 227 161
def number : Color := .rgb 250 179 135
def borderFocused : Color := .rgb 249 226 175
def borderNormal : Color := .rgb 88 91 112
def currentLine : Color := .rgb 49 50 68
/-- The names of called functions. -/
def function : Color := .rgb 249 226 175
def typeName : Color := .rgb 148 226 213

/-- The frame of a pane. -/
def border (focused : Bool) : Style :=
  if focused then { fg := borderFocused, bold := true } else { fg := borderNormal }

end FuzzLang.Viewer.Theme
