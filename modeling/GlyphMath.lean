import GlyphMath.Main
import GlyphMath.Proofs.Bars
import GlyphMath.Proofs.BracketRepair
import GlyphMath.Proofs.Completeness
import GlyphMath.Proofs.Neighbours
import GlyphMath.Proofs.Soundness
import GlyphMath.Proofs.Storing
import GlyphMath.Proofs.ReadBack
import GlyphMath.Proofs.RoundTrip
import GlyphMath.Proofs.Drawing
import GlyphMath.Proofs.Evaluation
import GlyphMath.Proofs.Balance
import GlyphMath.Proofs.Separation
import GlyphMath.Proofs.Levels
import GlyphMath.Proofs.Mending
import GlyphMath.Proofs.Arrangement
import GlyphMath.Proofs.Origins
import GlyphMath.Proofs.Raised
import GlyphMath.Proofs.Reports
import GlyphMath.Proofs.Rounds
import GlyphMath.Proofs.Agreement
import GlyphMath.Proofs.Calling
import GlyphMath.Proofs.Operands
import GlyphMath.Proofs.Supply
import GlyphMath.Proofs.Bases
import GlyphMath.Proofs.Powers
import GlyphMath.Proofs.Substitution
import GlyphMath.Proofs.LongestMatch
import GlyphMath.Proofs.NormalForm
import GlyphMath.Proofs.Places
import GlyphMath.Proofs.Canonical
import GlyphMath.Proofs.Versions
import GlyphMath.Proofs.Blanks
import GlyphMath.Proofs.Loading
import GlyphMath.Proofs.Dropping
import GlyphMath.Proofs.Tolerance
import GlyphMath.Proofs.Guards
import GlyphMath.Proofs.Reaching
import GlyphMath.Proofs.Joining
