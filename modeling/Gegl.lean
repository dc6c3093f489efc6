import Gegl.EvalVisitor
import Gegl.Layer.Operation
import Gegl.Layer.References
import Gegl.Compositor.Process
import Gegl.Compositor.Algebra
import Gegl.Lohalo.Sampler
import Gegl.Lohalo.Comonotone
import Gegl.Lohalo.Continuity
import Gegl.Lohalo.Precision
import Gegl.Lohalo.Symmetry
import Gegl.Lohalo.Hermite
import Gegl.Lohalo.Smoothness
import Gegl.Lohalo.Ellipse
import Gegl.P2t.Utils
