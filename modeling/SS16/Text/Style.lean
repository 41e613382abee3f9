/-!
# SS16.Text.Style — terminal styles

Escape sequences for the colours and weights of printed output.  A sequence switches one property
on or back to its default and leaves the others alone.
-/

namespace SS16.Style

def red : String := "\x1b[31m"

def green : String := "\x1b[32m"

def blue : String := "\x1b[34m"

/-- Default foreground. -/
def plain : String := "\x1b[39m"

def bold : String := "\x1b[1m"

/-- Bold off. -/
def light : String := "\x1b[22m"

def underline : String := "\x1b[4m"

/-- Underline off. -/
def level : String := "\x1b[24m"

end SS16.Style
